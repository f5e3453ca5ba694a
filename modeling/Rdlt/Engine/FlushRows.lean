/-
  Rdlt.Engine.FlushRows

  The rows a flush stages among all its rows.
-/

import Rdlt.Engine.Flush
import Rdlt.Engine.LastRows
import Rdlt.Merge.Refine.Children

namespace Rdlt.Engine

open Merge

variable {D τ : Type} {N : Normalized τ D} {schema : Schema} {α : Type}

/-! ## Lowered rows -/

theorem lowerRoot_seq (types : τ) (root : RootRow D N.root) (seq : Bytes) {column : N.root.Column}
    (hcolumn : N.root.indexOf? N.key.seq = some column) :
    N.lowerRoot types root seq column = some (.bytes seq) := by
  simp only [Normalized.lowerRoot, Schema.get_of_indexOf? hcolumn, if_true]

theorem bytesOf_seq_lowerRoot (types : τ) (root : RootRow D N.root) (seq : Bytes) :
    bytesOf N.key.seq (N.lowerRoot types root seq) = seq := by
  obtain ⟨column, hcolumn⟩ := Schema.exists_indexOf? N.rootHolds.1
  rw [bytesOf, hcolumn, Option.bind_some, lowerRoot_seq types root seq hcolumn]
  rfl

theorem lowerRoot_id (types : τ) (root : RootRow D N.root) (seq : Bytes) {column : N.root.Column}
    (hcolumn : N.root.indexOf? N.rootKey.id = some column) :
    N.lowerRoot types root seq column = some (.bytes (N.rootId types root.key)) := by
  simp only [Normalized.lowerRoot, Schema.get_of_indexOf? hcolumn, if_neg N.keyApart.2.2, if_true]

theorem bytesOf_id_lowerRoot (types : τ) (root : RootRow D N.root) (seq : Bytes) :
    bytesOf N.rootKey.id (N.lowerRoot types root seq) = N.rootId types root.key := by
  obtain ⟨column, hcolumn⟩ := Schema.exists_indexOf? N.rootHolds.2.1
  rw [bytesOf, hcolumn, Option.bind_some, lowerRoot_id types root seq hcolumn]
  rfl

theorem keyOf_lowerRoot (types : τ) (root : RootRow D N.root) (seq : Bytes) :
    keyOf N.key (N.lowerRoot types root seq) = N.stored types root.key := by
  funext index
  have hmem : N.key.columns.get index ∈ N.key.columns := List.get_mem _ _
  obtain ⟨column, hcolumn⟩ := Schema.exists_indexOf? (N.rootHolds.2.2 _ hmem)
  have hseq : N.key.columns.get index ≠ N.key.seq := fun h => N.keyApart.1 (h ▸ hmem)
  have hid : N.key.columns.get index ≠ N.rootKey.id := fun h => N.keyApart.2.1 (h ▸ hmem)
  have hfound : N.key.columns.finIdxOf? (N.key.columns.get index) = some index :=
    Schema.indexOf?_get N.keyNamed index
  rw [keyOf, hcolumn, Option.bind_some]
  simp only [Normalized.lowerRoot, Schema.get_of_indexOf? hcolumn, if_neg hseq, if_neg hid, hfound]

section

variable (id seq : Bytes) (row : Row D N.child)

theorem lowerChild_seq {column : N.child.Column}
    (hcolumn : N.child.indexOf? N.childKey.seq = some column) :
    N.lowerChild id seq row column = some (.bytes seq) := by
  simp only [Normalized.lowerChild, Schema.get_of_indexOf? hcolumn, if_true]

theorem bytesOf_seq_lowerChild : bytesOf N.childKey.seq (N.lowerChild id seq row) = seq := by
  obtain ⟨column, hcolumn⟩ := Schema.exists_indexOf? N.childHolds.2.1
  rw [bytesOf, hcolumn, Option.bind_some, lowerChild_seq id seq row hcolumn]
  rfl

theorem lowerChild_owner {column : N.child.Column}
    (hcolumn : N.child.indexOf? N.owner = some column) :
    N.lowerChild id seq row column = some (.bytes id) := by
  simp only [Normalized.lowerChild, Schema.get_of_indexOf? hcolumn, if_neg N.childHolds.2.2,
    if_true]

theorem bytesOf_owner_lowerChild : bytesOf N.owner (N.lowerChild id seq row) = id := by
  obtain ⟨column, hcolumn⟩ := Schema.exists_indexOf? N.childHolds.1
  rw [bytesOf, hcolumn, Option.bind_some, lowerChild_owner id seq row hcolumn]
  rfl

end

/-! ## Prepared batches -/

theorem fields_prepared (rows : List (Row D schema)) : (prepared rows).fields = schema := by
  simp [prepared, heldBatch]

theorem readUnder_prepared (hschema : schema.Nodup) (rows : List (Row D schema)) :
    readUnder schema (prepared rows) = rows :=
  readUnder_heldBatch hschema (List.nodup_finRange _) rows fun _ _ column hcolumn =>
    absurd (List.mem_finRange column) hcolumn

theorem column_prepared (hschema : schema.Nodup) (rows : List (Row D schema)) {name : String}
    {column : schema.Column} (hcolumn : schema.indexOf? name = some column) :
    (prepared rows).column name = rows.map fun row => row column := by
  conv_rhs => rw [← readUnder_prepared hschema rows, readUnder, List.map_map]
  rw [Batch.column, ← Schema.get_of_indexOf? hcolumn]
  rfl

theorem readBack_prepared {β : Type} (hschema : schema.Nodup) (l : List α) (parts : α → List β)
    (rows : α → β → List (Row D schema)) :
    readBack schema (l.flatMap fun a => (parts a).map fun part => prepared (rows a part))
      = l.flatMap fun a => (parts a).flatMap (rows a) := by
  rw [readBack, List.flatMap_assoc]
  refine List.flatMap_congr fun a _ => ?_
  rw [List.flatMap_map]
  exact List.flatMap_congr fun part _ => readUnder_prepared hschema _

/-! ## Every root row -/

namespace Flush

variable (flush : Flush N)

/-- The flush's root rows, each with its key's types and its position in the segment. -/
def placed : List ((τ × RootRow D N.root) × Nat) :=
  (flush.pieces.flatMap fun piece => piece.rows.map (piece.types, ·)).zipIdx flush.firstRow

def lowered (root : (τ × RootRow D N.root) × Nat) : Row D N.root :=
  N.lowerRoot root.1.1 root.1.2 (sequence flush.segment root.2)

end Flush

section

variable (first : Nat) (pieces : List (Piece N))

def stampedRow (stamped : Piece N × Nat) (row : RootRow D N.root × Nat) :
    (τ × RootRow D N.root) × Nat :=
  ((stamped.1.types, row.1), stamped.2 + row.2)

theorem getElem?_stamped (index : Nat) :
    (stamped first pieces)[index]? = (pieces[index]?).map fun piece =>
      (piece, first + ((pieces.map fun piece => piece.rows.length).take index).sum) := by
  induction pieces generalizing first index with
  | nil => rfl
  | cons piece pieces ih =>
    cases index with
    | zero => simp [stamped]
    | succ index => simp [stamped, ih, Nat.add_assoc]

theorem length_stamped : (stamped first pieces).length = pieces.length := by
  induction pieces generalizing first with
  | nil => rfl
  | cons piece pieces ih => rw [stamped, List.length_cons, ih, List.length_cons]

theorem flatMap_stamped :
    (stamped first pieces).flatMap (fun stamped => stamped.1.rows.zipIdx.map (stampedRow stamped))
      = (pieces.flatMap fun piece => piece.rows.map (piece.types, ·)).zipIdx first := by
  induction pieces generalizing first with
  | nil => rfl
  | cons piece pieces ih =>
    rw [stamped, List.flatMap_cons, ih, List.flatMap_cons, List.zipIdx_append, List.length_map]
    refine congrArg (· ++ _) ?_
    rw [List.zipIdx_map, List.zipIdx_eq_map_add (i := first), List.map_map]
    rfl

end

variable {part : List (RootRow D N.root × Nat)} {row : RootRow D N.root × Nat}

namespace Flush

variable {position : Nat} {set : List Bool}

variable (flush : Flush N)

theorem readBack_everyRoot : readBack N.root flush.everyRoot = flush.placed.map flush.lowered := by
  rw [everyRoot, readBack_prepared N.rootNamed, placed, ← flatMap_stamped, List.map_flatMap]
  refine List.flatMap_congr fun stamped _ => ?_
  rw [Piece.rows, ← stamped.1.cut, List.map_map, List.map_flatten, ← List.flatMap_def]
  rfl

theorem sequence_lt_of_placed {later : (τ × RootRow D N.root) × Nat}
    (hlater : later ∈ flush.placed) (hlt : position < later.2) :
    sequence flush.segment position < sequence flush.segment later.2 := by
  refine sequence_lt hlt (lt_of_lt_of_le ?_ flush.fits)
  have hbound := (List.mem_zipIdx hlater).2.1
  simpa [List.length_flatMap] using hbound

theorem eq_of_placed {root other : (τ × RootRow D N.root) × Nat} (hroot : root ∈ flush.placed)
    (hother : other ∈ flush.placed)
    (hsame : sequence flush.segment root.2 = sequence flush.segment other.2) : root = other := by
  have hposition : root.2 = other.2 := by
    obtain hlt | heq | hlt := Nat.lt_trichotomy root.2 other.2
    · exact absurd hsame (flush.sequence_lt_of_placed hother hlt).ne
    · exact heq
    · exact absurd hsame (flush.sequence_lt_of_placed hroot hlt).ne'
  have hheld := (List.mk_mem_zipIdx_iff_le_and_getElem?_sub.mp hroot).2
  have hheld' := (List.mk_mem_zipIdx_iff_le_and_getElem?_sub.mp hother).2
  rw [hposition, hheld'] at hheld
  exact Prod.ext (Option.some.inj hheld).symm hposition

theorem mem_placed {stamped : Piece N × Nat}
    (hstamped : stamped ∈ Engine.stamped flush.firstRow flush.pieces)
    (hpart : part ∈ stamped.1.roots) (hrow : row ∈ part) :
    stampedRow stamped row ∈ flush.placed := by
  rw [placed, ← flatMap_stamped]
  refine List.mem_flatMap.mpr ⟨stamped, hstamped, List.mem_map.mpr ⟨row, ?_, rfl⟩⟩
  rw [Piece.rows, ← stamped.1.cut]
  exact List.mem_flatten.mpr ⟨part, hpart, hrow⟩

/-! ## What a row is left out for -/

theorem typed_keys : typed (flush.pieces.map Piece.keys).flatten
      = (flush.pieces.flatMap fun piece => piece.rows.map (piece.types, ·)).map
          fun root => (root.1, root.2.key) := by
  rw [typed, ← List.flatMap_def, List.flatMap_assoc, List.map_flatMap]
  refine List.flatMap_congr fun piece _ => ?_
  rw [Piece.keys, List.flatMap_map, Piece.rows, List.map_map, List.map_flatten, ← List.flatMap_def]
  refine List.flatMap_congr fun batch _ => ?_
  rw [List.map_map]
  rfl

variable [LinearOrder τ]

def Takes (compares : Bool) (waits : Nat → Bool) (stamped : Piece N × Nat)
    (staging : Option (List Bool)) : Prop :=
  (stamped, staging) ∈ (Engine.stamped flush.firstRow flush.pieces).zip
    (flush.stagings compares waits)

variable {flush} {compares : Bool} {waits : Nat → Bool} {stamped : Piece N × Nat}
  {staging : Option (List Bool)}

theorem length_stamped_le (flush : Flush N) (compares : Bool) (waits : Nat → Bool) :
    (Engine.stamped flush.firstRow flush.pieces).length
      ≤ (flush.stagings compares waits).length := by
  rw [length_stamped, stagings, length_takeEach]

theorem exists_takes (compares : Bool) (waits : Nat → Bool)
    (h : stamped ∈ Engine.stamped flush.firstRow flush.pieces) :
    ∃ staging, flush.Takes compares waits stamped staging := by
  rw [← List.map_fst_zip (flush.length_stamped_le compares waits)] at h
  obtain ⟨⟨_, staging⟩, hmem, rfl⟩ := List.mem_map.mp h
  exact ⟨staging, hmem⟩

theorem Takes.bits (h : flush.Takes compares waits stamped (some set)) :
    ∃ offset, stamped.2 = flush.firstRow + offset ∧ ∀ position < stamped.1.rows.length,
      set[position]? = (lastAcross (flush.pieces.map Piece.keys).flatten)[offset + position]? := by
  obtain ⟨index, hindex⟩ := List.getElem?_of_mem h
  obtain ⟨hstamped, hstaging⟩ := List.getElem?_zip_eq_some.mp hindex
  rw [getElem?_stamped, Option.map_eq_some_iff] at hstamped
  obtain ⟨piece, hpiece, rfl⟩ := hstamped
  have hrows : ∀ piece : Piece N, (piece.keys.map fun batch => batch.keys.length).sum
      = piece.rows.length := by
    intro piece
    simp [Piece.keys, Piece.rows, Function.comp_def, List.length_flatten]
  obtain hnone | hfound := getElem?_takeEach hstaging
  · cases hnone
  rw [Nat.zero_add, staged] at hfound
  cases compares with
  | false => simp [List.getElem?_map] at hfound
  | true =>
    simp only [if_true, List.map_map, Function.comp_def, hrows] at hfound
    obtain ⟨set', hset', hbits⟩ := getElem?_slices hfound
    cases hset'
    refine ⟨_, rfl, fun position hposition => hbits position ?_⟩
    simpa [List.getD_eq_getElem?_getD, hpiece] using hposition

/-- A root row whose bit is not set shares its key, of the same types, with a later row. -/
theorem Takes.later (h : flush.Takes compares waits stamped (some set))
    {row : RootRow D N.root} (hrow : stamped.1.rows[position]? = some row)
    (hunset : set[position]? ≠ some true) :
    ∃ later ∈ flush.placed, stamped.2 + position < later.2 ∧ later.1.1 = stamped.1.types ∧
      later.1.2.key = row.key := by
  obtain ⟨offset, hfirst, hbits⟩ := h.bits
  have hlt := (List.getElem?_eq_some_iff.mp hrow).1
  rw [hbits position hlt, ne_eq, getElem?_lastAcross, typed_keys] at hunset
  have hplaced : stampedRow stamped (row, position) ∈ flush.placed := by
    rw [placed, ← flatMap_stamped]
    refine List.mem_flatMap.mpr ⟨stamped, (List.of_mem_zip h).1, List.mem_map.mpr ?_⟩
    exact ⟨_, List.mk_mem_zipIdx_iff_getElem?.mpr hrow, rfl⟩
  have hheld := (List.mk_mem_zipIdx_iff_le_and_getElem?_sub.mp hplaced).2
  rw [show stamped.2 + position - flush.firstRow = offset + position by omega] at hheld
  simp only [not_exists, not_and, not_forall, not_not] at hunset
  obtain ⟨place, hplace, hsame⟩ := hunset (stamped.1.types, row.key) (by
    rw [List.getElem?_map, hheld]
    rfl)
  rw [List.getElem?_map, Option.map_eq_some_iff] at hsame
  obtain ⟨later, hlater, heq⟩ := hsame
  obtain ⟨htypes, hkey⟩ := Prod.mk.inj heq
  refine ⟨(later, flush.firstRow + place), ?_, by simp only; omega, htypes, hkey⟩
  refine List.mk_mem_zipIdx_iff_le_and_getElem?_sub.mpr ⟨by omega, ?_⟩
  rw [Nat.add_sub_cancel_left]
  exact hlater

def Supersedes (flush : Flush N) (types : τ) (key : Bytes) (position : Nat)
    (later : (τ × RootRow D N.root) × Nat) : Prop :=
  later ∈ flush.placed ∧ position < later.2 ∧
    N.encode (N.stored later.1.1 later.1.2.key) = N.encode (N.stored types key) ∧
    N.rootId later.1.1 later.1.2.key = N.rootId types key

theorem Takes.superseded_of_unset
    (h : flush.Takes compares waits stamped (some set)) {row : RootRow D N.root}
    (hrow : stamped.1.rows[position]? = some row) (hunset : set[position]? ≠ some true) :
    ∃ later, flush.Supersedes stamped.1.types row.key (stamped.2 + position) later := by
  obtain ⟨later, hlater, hlt, htypes, hkey⟩ := h.later hrow hunset
  exact ⟨later, hlater, hlt, by rw [htypes, hkey], by rw [htypes, hkey]⟩

end Flush

/-! ## The root rows staged -/

theorem mem_masked {rows : List α} {bits : List Bool} {index : Nat} {row : α}
    (hrow : rows[index]? = some row) (hbit : bits[index]? = some true) :
    row ∈ masked rows bits := by
  refine List.mem_map.mpr ⟨(row, true), List.mem_filter.mpr ⟨?_, rfl⟩, rfl⟩
  exact List.mem_of_getElem? (List.getElem?_zip_eq_some.mpr ⟨hrow, hbit⟩)

theorem masked_sublist (rows : List α) (bits : List Bool) : (masked rows bits).Sublist rows := by
  induction rows generalizing bits with
  | nil => exact List.Sublist.refl _
  | cons row rows ih =>
    cases bits with
    | nil => exact List.nil_sublist _
    | cons bit bits =>
      cases bit with
      | true => exact (ih bits).cons_cons row
      | false => exact (ih bits).cons row

theorem merged_sublist (compacts : Bool) (key : α → Bytes) (staging : Option (List Bool))
    (part : List (α × Nat)) : (merged compacts key staging part).Sublist part := by
  unfold merged
  split
  · exact List.filter_sublist
  · split
    · exact masked_sublist _ _
    · exact List.Sublist.refl _

namespace Flush

def kept [LinearOrder τ] (flush : Flush N) (compares : Bool) (waits : Nat → Bool) :
    List ((τ × RootRow D N.root) × Nat) :=
  ((Engine.stamped flush.firstRow flush.pieces).zip (flush.stagings compares waits)).flatMap
    fun staging => staging.1.1.roots.flatMap fun part =>
      (merged true (N.storedKey staging.1.1.types) staging.2 part).map (stampedRow staging.1)

variable [LinearOrder τ] {flush : Flush N} {compares : Bool} {waits : Nat → Bool}
  {stamped : Piece N × Nat} {staging : Option (List Bool)}

theorem readBack_stagedRoots (flush : Flush N) (compares : Bool) (waits : Nat → Bool) :
    readBack N.root (flush.stagedRoots compares waits)
      = (flush.kept compares waits).map flush.lowered := by
  rw [stagedRoots, readBack_prepared N.rootNamed, kept, List.map_flatMap]
  refine List.flatMap_congr fun staging _ => ?_
  rw [List.map_flatMap]
  refine List.flatMap_congr fun part _ => ?_
  rw [lowerRoots, List.map_map]
  rfl

theorem kept_subset (flush : Flush N) (compares : Bool) (waits : Nat → Bool) :
    flush.kept compares waits ⊆ flush.placed := by
  intro root hroot
  obtain ⟨⟨stamped, staging⟩, htakes, hroot⟩ := List.mem_flatMap.mp hroot
  obtain ⟨part, hpart, hroot⟩ := List.mem_flatMap.mp hroot
  obtain ⟨row, hrow, rfl⟩ := List.mem_map.mp hroot
  exact mem_placed _ (List.of_mem_zip htakes).1 hpart ((merged_sublist _ _ _ _).subset hrow)

/-- A row of a piece's root part that is not staged is superseded. -/
theorem Takes.superseded (h : flush.Takes compares waits stamped staging)
    (hpart : part ∈ stamped.1.roots) (hrow : row ∈ part)
    (hout : row ∉ merged true (N.storedKey stamped.1.types) staging part) :
    ∃ later, flush.Supersedes stamped.1.types row.1.key (stamped.2 + row.2) later := by
  have hsub : part.Sublist stamped.1.rows.zipIdx := by
    rw [Piece.rows, ← stamped.1.cut]
    exact List.sublist_flatten_of_mem hpart
  cases staging with
  | some set =>
    have hheld : stamped.1.rows[row.2]? = some row.1 :=
      List.mk_mem_zipIdx_iff_getElem?.mp (hsub.subset hrow)
    refine h.superseded_of_unset hheld fun hset => hout ?_
    exact List.mem_filter.mpr ⟨hrow, by simp [hset]⟩
  | none =>
    -- a later row of the part is stored under the row's key, and so is the same root's
    obtain ⟨index, hindex⟩ := List.getElem?_of_mem hrow
    have hbit : ¬ (lastOfEachKey (part.map fun row => N.storedKey stamped.1.types row.1))[index]?
        = some true := fun hbit => hout (mem_masked hindex hbit)
    rw [getElem?_lastOfEachKey] at hbit
    simp only [not_exists, not_and, not_forall, not_not] at hbit
    obtain ⟨index', hlt, hsame⟩ := hbit (N.storedKey stamped.1.types row.1) (by
      rw [List.getElem?_map, hindex]
      rfl)
    rw [List.getElem?_map, Option.map_eq_some_iff] at hsame
    obtain ⟨later, hlater, hkey⟩ := hsame
    have hpositions : (part.map Prod.snd).Pairwise (· < ·) := by
      refine List.Pairwise.sublist (hsub.map _) ?_
      rw [List.zipIdx_map_snd]
      exact List.pairwise_lt_range'
    have hposition : row.2 < later.2 := by
      obtain ⟨hbound, rfl⟩ := List.getElem?_eq_some_iff.mp hindex
      obtain ⟨hbound', rfl⟩ := List.getElem?_eq_some_iff.mp hlater
      have := List.pairwise_iff_getElem.mp hpositions index index' (by simpa) (by simpa) hlt
      simpa using this
    refine ⟨stampedRow stamped later, ?_, Nat.add_lt_add_left hposition _, hkey,
      congrArg (N.idOf _) hkey⟩
    exact mem_placed _ (List.of_mem_zip h).1 hpart (List.mem_of_getElem? hlater)

theorem kept_or_superseded {root : (τ × RootRow D N.root) × Nat} (hroot : root ∈ flush.placed)
    (hout : root ∉ flush.kept compares waits) :
    ∃ later, flush.Supersedes root.1.1 root.1.2.key root.2 later := by
  rw [placed, ← flatMap_stamped] at hroot
  obtain ⟨stamped, hstamped, hroot⟩ := List.mem_flatMap.mp hroot
  rw [Piece.rows, ← stamped.1.cut] at hroot
  obtain ⟨row, hrow, rfl⟩ := List.mem_map.mp hroot
  obtain ⟨part, hpart, hrow⟩ := List.mem_flatten.mp hrow
  obtain ⟨staging, htakes⟩ := exists_takes compares waits hstamped
  refine htakes.superseded hpart hrow fun hmerged => hout ?_
  exact List.mem_flatMap.mpr ⟨_, htakes, List.mem_flatMap.mpr ⟨part, hpart,
    List.mem_map.mpr ⟨row, hmerged, rfl⟩⟩⟩

theorem latest_kept (flush : Flush N) (compares : Bool) (waits : Nat → Bool)
    {p : (τ × RootRow D N.root) × Nat → Bool}
    (hp : ∀ root later, flush.Supersedes root.1.1 root.1.2.key root.2 later → p root → p later) :
    Lib.latest (fun root => sequence flush.segment root.2) ((flush.kept compares waits).filter p)
      = Lib.latest (fun root => sequence flush.segment root.2) (flush.placed.filter p) := by
  refine Lib.latest_filter_of_superseded
    (fun root hroot other hother => flush.eq_of_placed hroot hother)
    (flush.kept_subset compares waits) fun root hroot hout hroot' => ?_
  obtain ⟨later, hlater⟩ := kept_or_superseded hroot hout
  exact ⟨later, hlater.1, hp root later hlater hroot',
    flush.sequence_lt_of_placed hlater.1 hlater.2.1⟩

end Flush

end Rdlt.Engine
