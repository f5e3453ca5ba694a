/-
  Rdlt.Merge.Refine.Admitted

  What an admitted batch is: it holds the columns its table merges by, and each
  of its rows has a sequence and, for a change stream's, an op, a deletion time
  where it must say one, and flags unchanged only columns its table stores other
  than its key and its sequence.
-/

import Rdlt.Merge.Changes

namespace Rdlt.Merge

open Lib

variable {D : Type} {key : MergeKey} {changes : ChangeColumns} {stored : Option Schema}
  {list : List ChangeOp} {place row : Nat}

/-! ## Ops -/

variable {raw : Batch D}

theorem ops_eq_ok_iff : ops raw changes = .ok list ↔ raw.hasColumn changes.op ∧
      ((List.range raw.numRows).mapM fun row =>
        int8Of (raw.cell row changes.op) >>= opOf) = .ok list := by
  rw [ops, ite_throw_bind_eq_ok, Bool.not_eq_true', Bool.not_eq_false,
    mapM_bind_mapM_eq_ok, Batch.column, List.mapM_map]
  exact Iff.rfl

theorem ops_eq (h : ops raw changes = .ok list) :
    list = (List.range raw.numRows).map (changes.opAt raw) :=
  eq_map_of_mapM_eq_ok (fun _ _ hop => by rw [ChangeColumns.opAt, hop]) (ops_eq_ok_iff.mp h).2

theorem exists_ops_iff : (∃ list, ops raw changes = .ok list) ↔ changes.op ∈ raw.fields ∧
      ∀ row < raw.numRows, ∃ op, (int8Of (raw.cell row changes.op) >>= opOf) = .ok op := by
  simp only [ops_eq_ok_iff, exists_and_left, exists_mapM_eq_ok_iff, List.mem_range,
    Batch.hasColumn, List.contains_iff_mem]

theorem zipIdx_map_range {α : Type} (f : Nat → α) (n : Nat) :
    ((List.range n).map f).zipIdx = (List.range n).map fun row => (f row, row) := by
  refine List.ext_getElem (by simp) fun row hrow _ => ?_
  simp

theorem untimed_eq_false_iff {time : String} (h : ops raw changes = .ok list) :
    untimed raw time list = false ↔ ∀ row < raw.numRows,
      changes.opAt raw row = .delete ∨ changes.opAt raw row = .truncate →
        (raw.cell row time).isSome := by
  rw [ops_eq h, untimed, zipIdx_map_range, List.any_map, List.any_eq_false]
  simp only [List.mem_range, Function.comp_apply, Bool.and_eq_true, Bool.or_eq_true, beq_iff_eq,
    Option.isNone_iff_eq_none, not_and, Option.isSome_iff_ne_none, ne_eq]

/-! ## Unchanged flags -/

def bitmap : Cell D → Option Bytes
  | some (.bytes bitmap) => some bitmap
  | _ => none

theorem bitmapOf_eq_ok {cell : Cell D} {held : Option Bytes} :
    bitmapOf cell = .ok held ↔ cell = held.map .bytes := by
  rcases cell with _ | (_ | _ | _ | _) <;> cases held <;> simp [bitmapOf, eq_comm]

theorem bitmap_of_eq {cell : Cell D} {held : Option Bytes} (h : cell = held.map .bytes) :
    bitmap cell = held := by
  subst h
  cases held <;> rfl

def FlagsPass (raw : Batch D) (stored : Option Schema) (key : MergeKey) (changes : ChangeColumns)
    (row : Nat) (name : String) : Prop :=
  raw.cell row name = (bitmap (raw.cell row name)).map .bytes ∧
    ∀ held, bitmap (raw.cell row name) = some held →
      refusedFlag (flagRefusals raw.fields stored key changes) held = none

/-- Flags pass exactly when each row's do. -/
theorem flags_eq_ok_iff : flags raw stored key changes = .ok () ↔
      ∀ name, changes.unchanged.filter raw.hasColumn = some name → ∀ row < raw.numRows,
        FlagsPass raw stored key changes row name := by
  unfold flags
  cases hname : changes.unchanged.filter raw.hasColumn with
  | none => exact ⟨fun _ _ h => (by cases h), fun _ => rfl⟩
  | some name =>
    have hmem : ∀ row < raw.numRows, raw.cell row name ∈ raw.column name := fun row hrow =>
      List.mem_map.mpr ⟨row, List.mem_range.mpr hrow, rfl⟩
    constructor
    · intro h name' hname' row hrow
      cases hname'
      obtain ⟨bitmaps, hbitmaps, h⟩ := bind_eq_ok.mp h
      obtain ⟨held, hheld⟩ := exists_mapM_eq_ok_iff.mp ⟨bitmaps, hbitmaps⟩ _ (hmem row hrow)
      have hread := bitmapOf_eq_ok.mp hheld
      refine ⟨by rwa [bitmap_of_eq hread], fun flagged hflagged => ?_⟩
      have hbitmaps' : bitmaps = (raw.column name).map bitmap :=
        eq_map_of_mapM_eq_ok (fun _ _ hok => bitmap_of_eq (bitmapOf_eq_ok.mp hok)) hbitmaps
      dsimp only at h
      split at h
      · exact (throw_eq_ok.mp h).elim
      · rename_i hnone
        refine List.findSome?_eq_none_iff.mp hnone flagged (List.reduceOption_mem_iff.mpr ?_)
        rw [hbitmaps', ← hflagged]
        exact List.mem_map_of_mem (hmem row hrow)
    · intro h
      have hread : (raw.column name).mapM bitmapOf = .ok ((raw.column name).map bitmap) := by
        refine mapM_eq_ok_of_forall fun cell hcell => bitmapOf_eq_ok.mpr ?_
        obtain ⟨row, hrow, rfl⟩ := List.mem_map.mp hcell
        exact (h name rfl row (List.mem_range.mp hrow)).1
      refine bind_eq_ok.mpr ⟨_, hread, ?_⟩
      have hnone : ((raw.column name).map bitmap).reduceOption.findSome?
          (refusedFlag (flagRefusals raw.fields stored key changes)) = none := by
        rw [List.findSome?_eq_none_iff]
        intro held hheld
        obtain ⟨cell, hcell, hcellHeld⟩ := List.mem_map.mp (List.reduceOption_mem_iff.mp hheld)
        obtain ⟨row, hrow, rfl⟩ := List.mem_map.mp hcell
        exact (h name rfl row (List.mem_range.mp hrow)).2 held hcellHeld
      dsimp only
      rw [hnone]
      rfl

/-! ## Admission, row by row -/

/-- The columns a batch's rows are keyed by. -/
def MergeKey.keyedBy (key : MergeKey) : List String :=
  if key.root.isSome then key.columns.take 1 else key.columns

/-- The columns a batch must hold for its rows to be admitted. -/
structure Holds (key : MergeKey) (fields : Schema) : Prop where
  seq : key.seq ∈ fields
  keys : ∀ column ∈ key.keyedBy, column ∈ fields
  op : ∀ changes, key.changes = some changes → changes.op ∈ fields

/-- What a row of an admitted batch holds: a sequence and, for a change stream's, an op, the time a
    soft delete or truncate of history is at, and flags that pass. -/
structure RowAdmitted (stored : Option Schema) (key : MergeKey) (raw : Batch D) (row : Nat) :
    Prop where
  seq : (raw.cell row key.seq).isSome
  op : ∀ changes, key.changes = some changes →
    ∃ op, (int8Of (raw.cell row changes.op) >>= opOf) = .ok op
  timed : ∀ changes time, key.changes = some changes → key.history.isSome →
    changes.deletion = .soft time →
      changes.opAt raw row = .delete ∨ changes.opAt raw row = .truncate →
        (raw.cell row time).isSome
  flags : ∀ changes name, key.changes = some changes →
    changes.unchanged.filter raw.hasColumn = some name → FlagsPass raw stored key changes row name

theorem admitted_eq_ok_iff : admitted raw stored key = .ok () ↔
      raw.hasColumn key.seq ∧ (raw.column key.seq).any Option.isNone = false ∧
      key.keyedBy.find? (fun column => !raw.hasColumn column) = none ∧
      ∀ changes, key.changes = some changes → ∃ list, ops raw changes = .ok list ∧
        (∀ time, key.history.isSome → changes.deletion = .soft time →
          untimed raw time list = false) ∧
        flags raw stored key changes = .ok () := by
  unfold admitted
  simp only [ite_throw_bind_eq_ok]
  rw [Bool.not_eq_true', Bool.not_eq_false, Bool.not_eq_true]
  refine and_congr_right fun _ => and_congr_right fun _ => ?_
  have hkeyed : (if key.root.isSome then key.columns.take 1 else key.columns) = key.keyedBy := rfl
  simp only [hkeyed]
  cases key.keyedBy.find? (fun column => !raw.hasColumn column) with
  | some missing => simp [throw_bind_eq_ok]
  | none =>
    cases hchanges : key.changes with
    | none => simp [pure_eq_ok]
    | some changes =>
      cases hhistory : key.history with
      | none => simp [bind_eq_ok]
      | some history =>
        cases hdeletion : changes.deletion with
        | hard => simp [bind_eq_ok, hdeletion]
        | soft time => simp [bind_eq_ok, hdeletion, ite_throw_bind_eq_ok]

theorem admitted_iff : admitted raw stored key = .ok () ↔
      Holds key raw.fields ∧ ∀ row < raw.numRows, RowAdmitted stored key raw row := by
  have hnull : (raw.column key.seq).any Option.isNone = false ↔
      ∀ row < raw.numRows, (raw.cell row key.seq).isSome := by
    rw [List.any_eq_false, Batch.column, List.forall_mem_map]
    refine forall_congr' fun row => ?_
    rw [List.mem_range, ← Option.not_isSome, Bool.not_eq_true', Bool.not_eq_false]
  have hkeys : key.keyedBy.find? (fun column => !raw.hasColumn column) = none ↔
      ∀ column ∈ key.keyedBy, column ∈ raw.fields := by
    rw [List.find?_eq_none]
    refine forall₂_congr fun column _ => ?_
    rw [Bool.not_eq_true', Bool.not_eq_false, Batch.hasColumn, List.contains_iff_mem]
  rw [admitted_eq_ok_iff, hnull, hkeys, Batch.hasColumn, List.contains_iff_mem]
  constructor
  · rintro ⟨hseq, hseqs, hkeyed, hchanged⟩
    refine ⟨⟨hseq, hkeyed, fun changes hchanges => ?_⟩, fun row hrow =>
      ⟨hseqs row hrow, fun changes hchanges => ?_, fun changes time hchanges hhistory hsoft => ?_,
        fun changes name hchanges hname => ?_⟩⟩
    all_goals obtain ⟨list, hops, htimed, hflags⟩ := hchanged changes hchanges
    · exact (exists_ops_iff.mp ⟨list, hops⟩).1
    · exact (exists_ops_iff.mp ⟨list, hops⟩).2 row hrow
    · exact (untimed_eq_false_iff hops).mp (htimed time hhistory hsoft) row hrow
    · exact flags_eq_ok_iff.mp hflags name hname row hrow
  · rintro ⟨hholds, hrows⟩
    refine ⟨hholds.seq, fun row hrow => (hrows row hrow).seq, hholds.keys,
      fun changes hchanges => ?_⟩
    obtain ⟨list, hops⟩ := exists_ops_iff.mpr
      ⟨hholds.op changes hchanges, fun row hrow => (hrows row hrow).op changes hchanges⟩
    refine ⟨list, hops, fun time hhistory hsoft => ?_, ?_⟩
    · exact (untimed_eq_false_iff hops).mpr fun row hrow =>
        (hrows row hrow).timed changes time hchanges hhistory hsoft
    · exact flags_eq_ok_iff.mpr fun name hname row hrow =>
        (hrows row hrow).flags changes name hchanges hname

/-! ## Some of the rows of batches -/

/-- The rows of `again` are rows of `incoming`, each written as it was there: any of them, in any
    order, in whatever batches. -/
def SubRows (again incoming : List (Batch D)) : Prop :=
  ∀ raw ∈ again, ∃ held ∈ incoming, raw.fields = held.fields ∧ ∀ row ∈ raw.rows, row ∈ held.rows

instance [DecidableEq D] (again incoming : List (Batch D)) : Decidable (SubRows again incoming) :=
  inferInstanceAs (Decidable (∀ raw ∈ again, ∃ held ∈ incoming, _ ∧ _))

variable {held : Batch D}

theorem cell_congr (hfields : raw.fields = held.fields)
    (hrow : raw.rows[row]? = held.rows[place]?) : raw.cell row = held.cell place := by
  funext name
  rw [Batch.cell, Batch.cell, hfields, hrow]

theorem hasColumn_congr (hfields : raw.fields = held.fields) : raw.hasColumn = held.hasColumn := by
  funext name
  rw [Batch.hasColumn, Batch.hasColumn, hfields]

theorem opAt_congr (h : raw.cell row = held.cell place) :
    changes.opAt raw row = changes.opAt held place := by
  rw [ChangeColumns.opAt, ChangeColumns.opAt, h]

theorem rowAdmitted_congr (hfields : raw.fields = held.fields)
    (hrow : raw.rows[row]? = held.rows[place]?) (h : RowAdmitted stored key held place) :
    RowAdmitted stored key raw row := by
  have hcell := cell_congr hfields hrow
  refine ⟨by rw [hcell]; exact h.seq, by rw [hcell]; exact h.op, ?_,
    fun changes name hchanges => ?_⟩
  · intro changes time hchanges hhistory hsoft
    rw [hcell, opAt_congr hcell]
    exact h.timed changes time hchanges hhistory hsoft
  · rw [hasColumn_congr hfields, FlagsPass, hcell, hfields]
    exact h.flags changes name hchanges

variable {again incoming : List (Batch D)}

theorem SubRows.exists_row (h : SubRows again incoming) (hraw : raw ∈ again) :
    ∃ held ∈ incoming, raw.fields = held.fields ∧
      ∀ row < raw.numRows, ∃ place < held.numRows, raw.rows[row]? = held.rows[place]? := by
  obtain ⟨held, hheld, hfields, hrows⟩ := h raw hraw
  refine ⟨held, hheld, hfields, fun row hrow => ?_⟩
  obtain ⟨place, hplace, heq⟩ := List.getElem_of_mem (hrows _ (List.getElem_mem hrow))
  exact ⟨place, hplace, by rw [List.getElem?_eq_getElem hrow, List.getElem?_eq_getElem hplace, heq]⟩

/-- What is read of some of the rows of batches is among what is read of them all. -/
theorem SubRows.flatMap_subset (h : SubRows again incoming) {α : Type} {read : Batch D → Nat → α}
    (hread : ∀ {raw held : Batch D}, raw.fields = held.fields → ∀ {row place : Nat},
      raw.rows[row]? = held.rows[place]? → read raw row = read held place) :
    (again.flatMap fun raw => (List.range raw.numRows).map (read raw))
      ⊆ incoming.flatMap fun raw => (List.range raw.numRows).map (read raw) := by
  intro value hvalue
  obtain ⟨raw, hraw, hvalue⟩ := List.mem_flatMap.mp hvalue
  obtain ⟨row, hrow, rfl⟩ := List.mem_map.mp hvalue
  obtain ⟨held, hheld, hfields, hrows⟩ := h.exists_row hraw
  obtain ⟨place, hplace, heq⟩ := hrows row (List.mem_range.mp hrow)
  refine List.mem_flatMap.mpr ⟨held, hheld, List.mem_map.mpr ⟨place, List.mem_range.mpr hplace, ?_⟩⟩
  exact (hread hfields heq).symm

theorem SubRows.readBack_subset (h : SubRows again incoming) (schema : Schema) :
    readBack schema again ⊆ readBack schema incoming :=
  h.flatMap_subset fun hfields _ _ hrow => by rw [cell_congr hfields hrow]

theorem SubRows.admitted (h : SubRows again incoming)
    (hadmitted : ∀ raw ∈ incoming, admitted raw stored key = .ok ()) :
    ∀ raw ∈ again, Merge.admitted raw stored key = .ok () := by
  intro raw hraw
  obtain ⟨held, hheld, hfields, hrows⟩ := h.exists_row hraw
  obtain ⟨hholds, hheldRows⟩ := admitted_iff.mp (hadmitted held hheld)
  refine admitted_iff.mpr ⟨hfields ▸ hholds, fun row hrow => ?_⟩
  obtain ⟨place, hplace, heq⟩ := hrows row hrow
  exact rowAdmitted_congr hfields heq (hheldRows place hplace)

end Rdlt.Merge
