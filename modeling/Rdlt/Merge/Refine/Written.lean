/-
  Rdlt.Merge.Refine.Written

  What an admitted batch of a change stream's table is: each of its rows has an
  op and a sequence, and flags unchanged only columns its table stores other
  than its key and its sequence.
-/

import Rdlt.Merge.ChangeTable
import Rdlt.Merge.Refine.Sources
import Rdlt.Merge.Refine.Table

namespace Rdlt.Merge

open Lib

variable {fields : Schema} {stored : Option Schema}

namespace ChangeTable

variable {D : Type} {T : ChangeTable D}

/-! ## Admission -/

def Admitted (T : ChangeTable D) (raw : Batch D) : Prop :=
  admitted raw (some T.stored) T.key = .ok ()

instance (raw : Batch D) : Decidable (T.Admitted raw) :=
  inferInstanceAs (Decidable (_ = _))

variable {raw : Batch D}

theorem Admitted.rows (h : T.Admitted raw) :
    ∀ row < raw.numRows, RowAdmitted (some T.stored) T.key raw row :=
  (admitted_iff.mp h).2

/-! ## Ops and sequences -/

theorem Admitted.ops_eq (h : T.Admitted raw) :
    ops raw T.changes = .ok ((List.range raw.numRows).map (T.opAt raw)) := by
  obtain ⟨list, hops⟩ := exists_ops_iff.mpr ⟨(admitted_iff.mp h).1.op _ T.changed,
    fun row hrow => (h.rows row hrow).op _ T.changed⟩
  rw [hops, Merge.ops_eq hops]

theorem Admitted.seq_isSome (h : T.Admitted raw) {row : Nat} (hrow : row < raw.numRows) :
    (T.rowAt raw row T.seqColumn).isSome := by
  rw [rowAt, T.get_seqColumn]
  exact (h.rows row hrow).seq

/-! ## Unchanged flags -/

variable {column : T.stored.Column}

theorem flagsColumn_iff {bitmap : Bytes} : T.flagsColumn fields bitmap column ↔
      ∃ ordinal name, fields[ordinal]? = some name ∧ T.stored.indexOf? name = some column ∧
        UnchangedFlags.contains bitmap ordinal := by
  simp only [flagsColumn, List.any_eq_true, Prod.exists, List.mem_zipIdx_iff_getElem?,
    List.getElem?_map, Option.map_eq_some_iff, Bool.and_eq_true, beq_iff_eq]
  constructor
  · rintro ⟨field, ordinal, ⟨name, hname, rfl⟩, hfield, hflag⟩
    exact ⟨ordinal, name, hname, hfield, hflag⟩
  · rintro ⟨ordinal, name, hname, hfield, hflag⟩
    exact ⟨_, ordinal, ⟨name, hname, rfl⟩, hfield, hflag⟩

theorem mem_flagged {fl : Flags T.stored} {bitmap : Bytes}
    (hstored : fl.stored = fields.map T.stored.indexOf?) :
    column ∈ fl.flagged bitmap ↔ T.flagsColumn fields bitmap column := by
  simp only [Flags.flagged, hstored, flagsColumn, List.mem_filterMap, List.any_eq_true,
    Bool.and_eq_true, beq_iff_eq, Prod.exists]
  constructor
  · rintro ⟨field, ordinal, hmem, hflag⟩
    split at hflag
    · exact ⟨field, ordinal, hmem, hflag, by assumption⟩
    · cases hflag
  · rintro ⟨field, ordinal, hmem, hfield, hflag⟩
    exact ⟨field, ordinal, hmem, by rw [if_pos hflag, hfield]⟩

theorem binaryOf_eq_ok {cell : Cell D} {held : Option Bytes} :
    binaryOf cell = .ok held ↔ cell = held.map .bytes := by
  rcases cell with _ | (_ | _ | _ | _) <;> cases held <;> simp [binaryOf, eq_comm]

theorem Admitted.flags (h : T.Admitted raw) {name : String}
    (hname : T.changes.unchanged.filter raw.hasColumn = some name) :
    (raw.column name).mapM binaryOf = .ok ((raw.column name).map bitmap) ∧
      ∀ row held, bitmap (raw.cell row name) = some held →
        refusedFlag (flagRefusals raw.fields (some T.stored) T.key T.changes) held = none := by
  have hrows : ∀ row < raw.numRows, FlagsPass raw (some T.stored) T.key T.changes row name :=
    fun row hrow => (h.rows row hrow).flags _ name T.changed hname
  refine ⟨mapM_eq_ok_of_forall fun cell hcell => binaryOf_eq_ok.mpr ?_, fun row held hheld => ?_⟩
  · obtain ⟨row, hrow, rfl⟩ := List.mem_map.mp hcell
    exact (hrows row (List.mem_range.mp hrow)).1
  · have hrow : row < raw.numRows := by
      by_contra hge
      have hnone : raw.cell row name = none := by
        simp [Batch.cell, List.getElem?_eq_none (Nat.le_of_not_lt hge)]
      rw [hnone] at hheld
      cases hheld
    exact (hrows row hrow).2 held hheld

theorem not_setAlways_of_refusedFlag {held : Bytes}
    (h : refusedFlag (flagRefusals fields stored T.key T.changes) held = none)
    {column : T.stored.Column} (hflag : T.flagsColumn fields held column) :
    T.key.setAlways (T.stored.get column) = false := by
  obtain ⟨ordinal, field, hfield, hcolumn, hflag⟩ := flagsColumn_iff.mp hflag
  rw [Bool.eq_false_iff]
  intro hset
  rw [Schema.get_of_indexOf? hcolumn] at hset
  have hlt : ordinal < (flagRefusals fields stored T.key T.changes).length := by
    rw [flagRefusals, List.length_map]
    exact (List.getElem?_eq_some_iff.mp hfield).1
  have hordinal := UnchangedFlags.mem_ordinalsBelow.mpr ⟨hflag, hlt⟩
  have hrefusal := List.findSome?_eq_none_iff.mp h ordinal hordinal
  simp [flagRefusals, hfield, hset] at hrefusal

theorem Admitted.not_keptAt (h : T.Admitted raw) (row : Nat)
    (hset : T.key.setAlways (T.stored.get column)) :
    T.keptAt raw row column = false := by
  rw [Bool.eq_false_iff]
  intro hkept
  unfold keptAt bitmapAt at hkept
  cases hname : T.changes.unchanged.filter raw.hasColumn with
  | none => simp [hname] at hkept
  | some name =>
    rw [hname, Option.bind_some] at hkept
    cases hheld : bitmap (raw.cell row name) with
    | none => simp [hheld] at hkept
    | some held =>
      rw [hheld, Option.any_some] at hkept
      have hrefused := (h.flags hname).2 row held hheld
      rw [not_setAlways_of_refusedFlag hrefused hkept] at hset
      cases hset

def flagsOf (T : ChangeTable D) (raw : Batch D) (name : String) : Flags T.stored where
  bitmaps := (raw.column name).map bitmap
  stored := raw.fields.map T.stored.indexOf?
  setAlways column := T.key.setAlways (T.stored.get column)

theorem getElem?_bitmaps (raw : Batch D) (name : String) (row : Nat) :
    ((T.flagsOf raw name).bitmaps[row]?).join = bitmap (raw.cell row name) := by
  simp only [flagsOf, Batch.column, List.map_map, List.getElem?_map]
  by_cases hrow : row < raw.numRows
  · simp [hrow]
  · have hnone : raw.cell row name = none := by
      simp [Batch.cell, List.getElem?_eq_none (Nat.le_of_not_lt hrow)]
    simp [hrow, hnone, bitmap]

/-- The mask of a row whose flags are refused nowhere says the columns it flags. -/
theorem mask_flagsOf {name : String} {row : Nat}
    (h : ∀ held, bitmap (raw.cell row name) = some held →
      refusedFlag (flagRefusals raw.fields stored T.key T.changes) held = none) :
    ∃ unchanged : Option (T.stored.Column → Bool), (T.flagsOf raw name).mask row = .ok unchanged ∧
      ∀ column, (unchanged.elim false fun unchanged => unchanged column)
        = (bitmap (raw.cell row name)).any fun held => T.flagsColumn raw.fields held column := by
  rw [Flags.mask, getElem?_bitmaps]
  cases hheld : bitmap (raw.cell row name) with
  | none => exact ⟨none, rfl, fun _ => rfl⟩
  | some held =>
    have hflagged : ∀ column, column ∈ (T.flagsOf raw name).flagged held
        ↔ T.flagsColumn raw.fields held column := fun column => mem_flagged rfl
    have hset : ((T.flagsOf raw name).flagged held).any (T.flagsOf raw name).setAlways = false := by
      rw [List.any_eq_false]
      intro column hcolumn
      rw [Bool.not_eq_true]
      exact not_setAlways_of_refusedFlag (h held hheld) ((hflagged column).mp hcolumn)
    dsimp only
    rw [hset, if_neg Bool.false_ne_true]
    refine ⟨_, rfl, fun column => ?_⟩
    rw [Option.any_some, Bool.eq_iff_iff, ← hflagged]
    cases hlist : (T.flagsOf raw name).flagged held with
    | nil => simp
    | cons first rest => simp

theorem Admitted.mask (h : T.Admitted raw) :
    ∃ fl, Flags.ofBatch T.stored T.key T.changes raw = .ok fl ∧
      ∀ row, ∃ unchanged : Option (T.stored.Column → Bool), (match fl with
          | some fl => fl.mask row
          | none => .ok none) = .ok unchanged ∧
        ∀ column, (unchanged.elim false fun unchanged => unchanged column)
          = T.keptAt raw row column := by
  cases hname : T.changes.unchanged.filter raw.hasColumn with
  | none =>
    refine ⟨none, by rw [Flags.ofBatch, hname], fun row => ⟨none, rfl, fun column => ?_⟩⟩
    simp [keptAt, bitmapAt, hname]
  | some name =>
    obtain ⟨hread, hrefused⟩ := h.flags hname
    refine ⟨some (T.flagsOf raw name), ?_, fun row => ?_⟩
    · rw [Flags.ofBatch, hname]
      exact bind_eq_ok.mpr ⟨_, hread, rfl⟩
    · obtain ⟨unchanged, hmask, hkept⟩ := mask_flagsOf (hrefused row)
      refine ⟨unchanged, hmask, fun column => ?_⟩
      rw [hkept, keptAt, bitmapAt, hname, Option.bind_some]

/-! ## The changes a merge reads -/

def changeOf (T : ChangeTable D) (sources : Sources D T.stored) (place : At) : Change where
  place := place
  op := T.opAt (sourceOf sources place) place.row
  seq := comparedBytes (sources.cell place T.seqColumn)

def keyedOf (T : ChangeTable D) (sources : Sources D T.stored) (place : At) : T.KeyedChange :=
  T.changeAt (sourceOf sources place) place.row

section

variable {sources : Sources D T.stored} {published incoming : List (Batch D)}

theorem changedRows_eq (hsources : sources.list = published ++ incoming)
    (hadmitted : ∀ raw ∈ incoming, T.Admitted raw) {seqs : At → Bytes}
    (hseqs : ∀ place, seqs place = comparedBytes (sources.cell place T.seqColumn)) :
    changedRows sources incoming published.length T.seqColumn seqs T.changes
      = .ok ((places published.length incoming).map (T.changeOf sources)) := by
  rw [← flatten_places]
  refine bind_eq_ok.mpr ⟨_, mapM_eq_ok_of_forall ?_, rfl⟩
  rintro ⟨raw, source⟩ hraw
  obtain ⟨hget, hmem, -⟩ := getElem?_source hsources hraw
  refine bind_eq_ok.mpr ⟨_, (hadmitted raw hmem).ops_eq, ?_⟩
  rw [zipIdx_map_range, List.mapM_map]
  refine mapM_eq_ok_of_forall fun row hrow => ?_
  have hseq := (hadmitted raw hmem).seq_isSome (List.mem_range.mp hrow)
  have hcell : sources.cell ⟨source, row⟩ T.seqColumn = T.rowAt raw row T.seqColumn := by
    simp [Sources.cell, hget, rowAt]
  have hnull : sources.isNull ⟨source, row⟩ T.seqColumn = false := by
    rw [Sources.isNull, hcell]
    simpa [Option.isNone_eq_false_iff] using hseq
  simp only [Function.comp_apply, hnull, hseqs]
  simp [changeOf, sourceOf, hget, pure, Except.pure]

theorem keyed_changeOf {place : At} (hget : sources.list[place.source]? = some raw)
    {unchanged : Option (T.stored.Column → Bool)}
    (hkept : ∀ column, (unchanged.elim false fun unchanged => unchanged column)
      = T.keptAt raw place.row column) :
    (T.changeOf sources place).keyed sources T.key unchanged = T.keyedOf sources place := by
  have hsource : sourceOf sources place = raw := by rw [sourceOf, hget, Option.getD_some]
  have hcells : sources.cell place = T.rowAt raw place.row := by
    funext column
    simp [Sources.cell, hget, rowAt]
  have hnames : sources.keyCells T.key place = T.keyCells (T.rowAt raw place.row) := by
    rw [← hcells]
    rfl
  rw [keyedOf, changeAt, Change.keyed, changeOf, hsource, hcells, hnames]
  congr 1
  exact funext hkept

theorem exists_masks (hsources : sources.list = published ++ incoming)
    (hadmitted : ∀ raw ∈ incoming, T.Admitted raw) :
    ∃ flags, incoming.mapM (Flags.ofBatch T.stored T.key T.changes) = .ok flags ∧
      ∀ place ∈ places published.length incoming, ∃ unchanged,
        maskAt flags published.length place = .ok unchanged ∧
        (T.changeOf sources place).keyed sources T.key unchanged = T.keyedOf sources place := by
  obtain ⟨flags, hflags⟩ := exists_mapM_eq_ok_iff.mpr fun raw hraw =>
    (hadmitted raw hraw).mask.imp fun _ h => h.1
  refine ⟨flags, hflags, fun place hplace => ?_⟩
  obtain ⟨raw, hraw, hrow⟩ := mem_places.mp hplace
  obtain ⟨hget, hmem, hnth⟩ := getElem?_source hsources hraw
  obtain ⟨fl, hfl, hmask⟩ := (hadmitted raw hmem).mask
  have hheld : flags[place.source - published.length]? = some fl :=
    getElem?_of_mapM_eq_ok hflags hnth hfl
  obtain ⟨unchanged, hunchanged, hkept⟩ := hmask place.row
  refine ⟨unchanged, ?_, keyed_changeOf hget hkept⟩
  rw [maskAt, hheld]
  cases fl <;> exact hunchanged

end

end ChangeTable

end Rdlt.Merge
