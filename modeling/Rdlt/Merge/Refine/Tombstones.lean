/-
  Rdlt.Merge.Refine.Tombstones

  A table's tombstones, key by key: each operation on them is the guard's, and
  what they are stored as reads back as the guards they were.
-/

import Rdlt.Merge.Guard
import Rdlt.Merge.Changes

namespace Rdlt.Merge

open Lib

variable {D : Type} {key : MergeKey}

/-! ## The guard of a key -/

section

variable (encode : KeyCells D key → Bytes) (rows : List (Buried D key))

/-- The tombstone of the key encoded `k` that `rows` store: the last that names it. -/
def storedStone (k : Bytes) : Option (Bytes × KeyCells D key) :=
  ((rows.filter fun buried => !buried.cells.allNull && encode buried.cells == k).getLast?).map
    fun buried => (comparedBytes buried.seq, buried.cells)

/-- The bound `rows` store: the greatest of those that name no key. -/
def storedBound : Option Bytes :=
  (rows.filter fun buried => buried.cells.allNull).foldl
    (fun bound buried => some (raisedTo bound (comparedBytes buried.seq))) none

def storedGuard (k : Bytes) : Guard Bytes (KeyCells D key) :=
  Guard.of (storedStone encode rows k) (storedBound rows)

end

namespace Tombstones

variable {tombstones : Tombstones D key}

/-- The tombstone the tombstones hold of the key encoded `k`, its key values found. -/
def stone (tombstones : Tombstones D key) (sourceKey : At → KeyCells D key) (k : Bytes) :
    Option (Bytes × KeyCells D key) :=
  (tombstones.byKey[k]?).map fun stone => (stone.seq, tombstones.keyCells sourceKey stone.key)

def guard (tombstones : Tombstones D key) (sourceKey : At → KeyCells D key) (k : Bytes) :
    Guard Bytes (KeyCells D key) :=
  Guard.of (tombstones.stone sourceKey k) tombstones.bound

variable (sourceKey : At → KeyCells D key)

/-! ## Operations -/

section

variable (tombstones : Tombstones D key)

theorem admits_none (k seq : Bytes) :
    tombstones.admits none seq = (tombstones.guard sourceKey k).reached seq := by
  rw [Bool.eq_iff_iff]
  cases hbound : tombstones.bound <;> simp [admits, guard, Guard.reached, hbound]

theorem admits_some (k seq : Bytes) :
    tombstones.admits (some k) seq = (tombstones.guard sourceKey k).admits seq := by
  rw [Bool.eq_iff_iff, Guard.admits_iff]
  cases hbound : tombstones.bound with
  | none =>
    cases hstone : tombstones.byKey[k]? <;>
      simp [admits, guard, stone, hbound, hstone]
  | some bound =>
    cases hstone : tombstones.byKey[k]? with
    | none => simp [admits, guard, stone, hbound, hstone]
    | some held =>
      by_cases hle : bound ≤ held.seq
      · simp [admits, guard, stone, hbound, hstone, hle]
      · have hcovered : bound ≤ seq → held.seq < seq := (not_le.mp hle).trans_le
        simpa [admits, guard, stone, hbound, hstone, hle] using hcovered

theorem guard_bury (rowKey seq k : Bytes) (place : At) :
    (tombstones.bury rowKey seq place).guard sourceKey k
      = if k = rowKey then (tombstones.guard sourceKey k).bury seq (sourceKey place)
        else tombstones.guard sourceKey k := by
  by_cases hk : k = rowKey
  · subst hk
    simp [guard, stone, bury, Guard.bury, keyCells]
  · have hne : ¬ rowKey = k := fun h => hk h.symm
    simp only [guard, stone, bury, hk, if_false, OrdMap.getElem?_insert, hne]
    rfl

theorem guard_lift (rowKey k : Bytes) : (tombstones.lift rowKey).guard sourceKey k
      = if k = rowKey then (tombstones.guard sourceKey k).lift
        else tombstones.guard sourceKey k := by
  by_cases hk : k = rowKey
  · subst hk
    simp [guard, stone, lift, Guard.lift]
  · have hne : ¬ rowKey = k := fun h => hk h.symm
    simp only [guard, stone, lift, hk, if_false, OrdMap.getElem?_erase, hne]
    rfl

theorem guard_raise (seq k : Bytes) :
    (tombstones.raise seq).guard sourceKey k = (tombstones.guard sourceKey k).raise seq := by
  have hraise : (tombstones.guard sourceKey k).raise seq
      = Guard.of (tombstones.stone sourceKey k) (some (tombstones.bound.elim seq (max · seq))) :=
    Guard.raise_of _ _ _
  rw [hraise]
  unfold raise
  cases hbound : tombstones.bound with
  | none => rfl
  | some bound =>
    by_cases hle : seq ≤ bound
    · simp [hbound, hle, guard]
    · have hmax : max bound seq = seq := max_eq_right (not_le.mp hle).le
      simp only [Option.any_some, hle, decide_false, Option.elim_some, hmax]
      rfl

@[simp] theorem stored_raise (seq : Bytes) : (tombstones.raise seq).stored = tombstones.stored := by
  unfold raise
  split <;> rfl

end

/-! ## Loading -/

theorem comparedBytes_of_ok {cell : Cell D} {bytes : Bytes} (h : compared cell = .ok bytes) :
    comparedBytes cell = bytes := by
  simp [comparedBytes, h]

/-- A stored tombstone with the sequence it reads as. -/
def sequenced (buried : Buried D key) : Buried D key × Bytes := (buried, comparedBytes buried.seq)

theorem storedStone_concat (encode : KeyCells D key → Bytes) (rows : List (Buried D key))
    (buried : Buried D key) (k : Bytes) : storedStone encode (rows ++ [buried]) k
      = if !buried.cells.allNull && encode buried.cells == k then
          some (comparedBytes buried.seq, buried.cells) else storedStone encode rows k := by
  unfold storedStone
  by_cases hnames : !buried.cells.allNull && encode buried.cells == k
  · simp [List.filter_append, hnames]
  · simp [List.filter_append, hnames]

theorem storedBound_concat (rows : List (Buried D key)) (buried : Buried D key) :
    storedBound (rows ++ [buried]) = if buried.cells.allNull then
          some (raisedTo (storedBound rows) (comparedBytes buried.seq)) else storedBound rows := by
  unfold storedBound
  by_cases hnull : buried.cells.allNull
  · simp [List.filter_append, hnull]
  · simp [List.filter_append, hnull]

theorem stone_hold {encode : KeyCells D key → Bytes}
    {buried : Buried D key} {row : Nat} (hget : tombstones.stored[row]? = some buried) (k : Bytes) :
    (hold encode tombstones (sequenced buried, row)).stone sourceKey k
      = if !buried.cells.allNull && encode buried.cells == k then
          some (comparedBytes buried.seq, buried.cells) else tombstones.stone sourceKey k := by
  by_cases hnull : buried.cells.allNull
  · simp [hold, sequenced, hnull, stone, keyCells]
  · by_cases hk : encode buried.cells = k
    · simp [hold, sequenced, hnull, stone, keyCells, hk, hget]
    · simp [hold, sequenced, hnull, stone, keyCells, hk, OrdMap.getElem?_insert]

theorem bound_hold (encode : KeyCells D key → Bytes) (tombstones : Tombstones D key)
    (buried : Buried D key) (row : Nat) : (hold encode tombstones (sequenced buried, row)).bound
      = if buried.cells.allNull then some (raisedTo tombstones.bound (comparedBytes buried.seq))
        else tombstones.bound := by
  by_cases hnull : buried.cells.allNull <;> simp [hold, sequenced, hnull]

theorem stored_hold (encode : KeyCells D key → Bytes) (tombstones : Tombstones D key)
    (entry : (Buried D key × Bytes) × Nat) :
    (hold encode tombstones entry).stored = tombstones.stored ∧
      (hold encode tombstones entry).changed = tombstones.changed := by
  unfold hold
  dsimp only
  split <;> exact ⟨rfl, rfl⟩

/-- Each stored tombstone read leaves what the tombstones read so far store. -/
theorem foldl_hold {encode : KeyCells D key → Bytes} (rest done all : List (Buried D key))
    (hall : all = done ++ rest) (tombstones : Tombstones D key) (hstored : tombstones.stored = all)
    (hstone : ∀ k, tombstones.stone sourceKey k = storedStone encode done k)
    (hbound : tombstones.bound = storedBound done) :
    let loaded := ((rest.map sequenced).zipIdx done.length).foldl (hold encode) tombstones
    (∀ k, loaded.stone sourceKey k = storedStone encode all k) ∧
      loaded.bound = storedBound all ∧ loaded.stored = all ∧
      loaded.changed = tombstones.changed := by
  induction rest generalizing done tombstones with
  | nil =>
    rw [List.append_nil] at hall
    subst hall
    exact ⟨hstone, hbound, hstored, rfl⟩
  | cons buried rest ih =>
    have hlength : (done ++ [buried]).length = done.length + 1 := by simp
    have hget : tombstones.stored[done.length]? = some buried := by simp [hstored, hall]
    obtain ⟨hstored', hchanged'⟩ := stored_hold encode tombstones (sequenced buried, done.length)
    have hrest := ih (done ++ [buried]) (by simp [hall])
      (hold encode tombstones (sequenced buried, done.length)) (hstored'.trans hstored)
      (fun k => by rw [stone_hold sourceKey hget, storedStone_concat, hstone])
      (by rw [bound_hold, storedBound_concat, hbound])
    rw [hlength, hchanged'] at hrest
    exact hrest

theorem load_eq_ok {encode : KeyCells D key → Bytes} {buried : List (Batch D)}
    (h : load encode buried = .ok tombstones) :
    (∀ k, tombstones.stone sourceKey k = storedStone encode (storedUnder key buried) k) ∧
      tombstones.bound = storedBound (storedUnder key buried) ∧
      tombstones.stored = storedUnder key buried ∧ tombstones.changed = false := by
  unfold load at h
  obtain ⟨seqs, hseqs, h⟩ := bind_eq_ok.mp h
  have hzip : (storedUnder key buried).zip seqs = (storedUnder key buried).map sequenced := by
    have hmap : seqs = (storedUnder key buried).map fun buried => comparedBytes buried.seq :=
      eq_map_of_mapM_eq_ok (fun _ _ hok => comparedBytes_of_ok hok) hseqs
    rw [hmap]
    exact List.map_prod_left_eq_zip.symm
  rw [hzip, pure_eq_ok] at h
  subst h
  refine foldl_hold sourceKey (storedUnder key buried) [] _ rfl _ rfl (fun k => ?_) rfl
  simp [stone, storedStone]

/-! ## Storing -/

/-- What tombstones keep while changes apply: each names its own key, and while nothing changed
    they are what is stored. -/
structure WF (encode : KeyCells D key → Bytes) (tombstones : Tombstones D key) : Prop where
  named : ∀ k held, tombstones.byKey[k]? = some held →
    encode (tombstones.keyCells sourceKey held.key) = k ∧
      (tombstones.keyCells sourceKey held.key).allNull = false
  unchanged : tombstones.changed = false →
    ∀ k, tombstones.guard sourceKey k = storedGuard encode tombstones.stored k

variable {sourceKey} {encode : KeyCells D key → Bytes}

theorem wf_of_load {buried : List (Batch D)}
    (h : load encode buried = .ok tombstones) : tombstones.WF sourceKey encode := by
  obtain ⟨hstone, hbound, hstored, -⟩ := load_eq_ok sourceKey h
  refine ⟨fun k held hheld => ?_, fun _ k => ?_⟩
  · have hnames : tombstones.stone sourceKey k
        = some (held.seq, tombstones.keyCells sourceKey held.key) := by simp [stone, hheld]
    rw [hstone, storedStone, Option.map_eq_some_iff] at hnames
    obtain ⟨row, hrow, hcells⟩ := hnames
    have hmem := List.mem_filter.mp (List.mem_of_getLast? hrow)
    simp only [Prod.mk.injEq] at hcells
    rw [← hcells.2]
    simpa [and_comm] using hmem.2
  · rw [guard, hstone, hbound, hstored, storedGuard]

theorem allNull_none : KeyCells.allNull (fun _ => none : KeyCells D key) = true := by
  simp [KeyCells.allNull]

def stoneRow (tombstones : Tombstones D key) (sourceKey : At → KeyCells D key)
    (entry : Bytes × Stone) : Buried D key :=
  { cells := tombstones.keyCells sourceKey entry.2.key, seq := some (.bytes entry.2.seq) }

/-- The rows of the keys past the bound. -/
def stoneRows (tombstones : Tombstones D key) (sourceKey : At → KeyCells D key) :
    List (Buried D key) :=
  (tombstones.byKey.toList.filter fun entry => uncovered tombstones.bound entry.2.seq).map
    (tombstones.stoneRow sourceKey)

theorem rows_eq (tombstones : Tombstones D key) :
    tombstones.rows sourceKey = tombstones.stoneRows sourceKey
        ++ tombstones.bound.toList.map fun bound =>
          { cells := fun _ => none, seq := some (.bytes bound) } := rfl

theorem storedUnder_buriedBatch (hnodup : (key.columns ++ [key.seq]).Nodup)
    (rows : List (Buried D key)) : storedUnder key [buriedBatch rows] = rows := by
  rw [storedUnder, List.flatMap_singleton]
  refine List.ext_getElem (by simp [Batch.numRows, buriedBatch]) ?_
  intro index hread hrows
  simp only [List.getElem_map, List.getElem_range]
  have hcells : ∀ i : Fin key.columns.length,
      (buriedBatch rows).cell index (key.columns.get i) = (rows.get ⟨index, hrows⟩).cells i := by
    intro i
    have hcell := (buriedBatch rows).cell_getElem hnodup index
      ⟨i.val, by simp only [buriedBatch, List.length_append]; omega⟩
    simpa [buriedBatch, hrows, List.getElem?_append] using hcell
  have hseq : (buriedBatch rows).cell index key.seq = (rows.get ⟨index, hrows⟩).seq := by
    have hcell := (buriedBatch rows).cell_getElem hnodup index
      ⟨key.columns.length, by simp [buriedBatch]⟩
    simpa [buriedBatch, hrows] using hcell
  simp only [hcells, hseq]
  rfl

theorem storedUnder_assemble (tombstones : Tombstones D key)
    (hnodup : (key.columns ++ [key.seq]).Nodup) : storedUnder key (tombstones.assemble sourceKey)
      = if tombstones.changed then tombstones.rows sourceKey else tombstones.stored := by
  rw [assemble]
  cases hrows : if tombstones.changed then tombstones.rows sourceKey else tombstones.stored with
  | nil => rfl
  | cons first rest => exact storedUnder_buriedBatch hnodup (first :: rest)

section

variable (hwf : tombstones.WF sourceKey encode)
include hwf

theorem WF.bury {rowKey : Bytes} (seq : Bytes) {place : At}
    (hkey : encode (sourceKey place) = rowKey)
    (hnamed : (sourceKey place).allNull = false) :
    (tombstones.bury rowKey seq place).WF sourceKey encode := by
  refine ⟨fun k held hheld => ?_, fun hchanged => by cases hchanged⟩
  rw [Tombstones.bury, OrdMap.getElem?_insert] at hheld
  split at hheld
  · rename_i hk
    cases hheld
    exact ⟨hkey.trans hk, hnamed⟩
  · exact hwf.named k held hheld

theorem WF.lift (rowKey : Bytes) : (tombstones.lift rowKey).WF sourceKey encode := by
  refine ⟨fun k held hheld => ?_, fun hchanged k => ?_⟩
  · rw [Tombstones.lift, OrdMap.getElem?_erase] at hheld
    split at hheld
    · cases hheld
    · exact hwf.named k held hheld
  · simp only [Tombstones.lift, Bool.or_eq_false_iff] at hchanged
    have hsame : (tombstones.lift rowKey).guard sourceKey k = tombstones.guard sourceKey k := by
      rw [guard_lift]
      split
      · rename_i hk
        subst hk
        have hnone : tombstones.byKey[k]? = none :=
          (OrdMap.contains_eq_false_iff _).mp hchanged.2
        simp [guard, stone, hnone, Guard.lift]
      · rfl
    exact hsame.trans (hwf.unchanged hchanged.1 k)

theorem WF.raise (seq : Bytes) : (tombstones.raise seq).WF sourceKey encode := by
  unfold Tombstones.raise
  split
  · exact hwf
  · exact ⟨fun k held hheld => hwf.named k held hheld, fun hchanged => by cases hchanged⟩

theorem names_stoneRow {entry : Bytes × Stone} (hentry : entry ∈ tombstones.byKey.toList) :
    (tombstones.stoneRow sourceKey entry).cells.allNull = false ∧
      encode (tombstones.stoneRow sourceKey entry).cells = entry.1 := by
  have hget := (OrdMap.mem_toList _).mp hentry
  exact (hwf.named entry.1 entry.2 hget).symm

theorem storedStone_rows (k : Bytes) :
    storedStone encode (tombstones.rows sourceKey) k
      = (tombstones.stone sourceKey k).filter fun held =>
          Guard.leaves tombstones.bound held.1 := by
  have hstones : (tombstones.stoneRows sourceKey).filter
        (fun buried => !buried.cells.allNull && encode buried.cells == k)
      = ((((tombstones.byKey[k]?).map (k, ·)).toList).filter fun entry =>
          uncovered tombstones.bound entry.2.seq).map (tombstones.stoneRow sourceKey) := by
    rw [stoneRows, List.filter_map, ← toList_filter_key, List.filter_filter, List.filter_filter]
    refine congrArg _ (List.filter_congr ?_)
    intro entry hentry
    obtain ⟨hnull, hkey⟩ := names_stoneRow hwf hentry
    by_cases hk : entry.1 = k <;> simp [hnull, hkey, hk]
  have hbounds : (tombstones.bound.toList.map fun bound =>
        ({ cells := fun _ => none, seq := some (.bytes bound) } : Buried D key)).filter
        (fun buried => !buried.cells.allNull && encode buried.cells == k) = [] := by
    cases tombstones.bound <;> simp [allNull_none]
  rw [storedStone, rows_eq, List.filter_append, hstones, hbounds, List.append_nil, stone]
  cases tombstones.byKey[k]? with
  | none => rfl
  | some held =>
    by_cases hleaves : Guard.leaves tombstones.bound held.seq
    · have huncovered : uncovered tombstones.bound held.seq := hleaves
      simp [huncovered, hleaves, stoneRow, comparedBytes, compared, Option.filter_some]
    · have huncovered : ¬ uncovered tombstones.bound held.seq := hleaves
      simp [huncovered, hleaves, Option.filter_some]

theorem storedBound_rows : storedBound (tombstones.rows sourceKey) = tombstones.bound := by
  have hstones :
      (tombstones.stoneRows sourceKey).filter (fun buried => buried.cells.allNull) = [] := by
    refine List.filter_eq_nil_iff.mpr fun buried hburied => ?_
    obtain ⟨entry, hentry, rfl⟩ := List.mem_map.mp hburied
    simp [(names_stoneRow hwf (List.mem_of_mem_filter hentry)).1]
  rw [storedBound, rows_eq, List.filter_append, hstones, List.nil_append]
  cases tombstones.bound with
  | none => rfl
  | some bound => simp [allNull_none, raisedTo, comparedBytes, compared]

theorem storedGuard_assemble (hnodup : (key.columns ++ [key.seq]).Nodup) (k : Bytes) :
    storedGuard encode (storedUnder key (tombstones.assemble sourceKey)) k
      = tombstones.guard sourceKey k := by
  rw [storedUnder_assemble tombstones hnodup]
  cases hchanged : tombstones.changed with
  | false => exact (hwf.unchanged hchanged k).symm
  | true =>
    rw [if_pos rfl, storedGuard, storedStone_rows hwf, storedBound_rows hwf]
    exact Guard.of_filter _ _

end

theorem seq_of_mem_rows {buried : Buried D key}
    (h : buried ∈ tombstones.rows sourceKey) : ∃ bytes, buried.seq = some (.bytes bytes) := by
  rw [rows_eq] at h
  rcases List.mem_append.mp h with h | h
  · obtain ⟨entry, -, rfl⟩ := List.mem_map.mp h
    exact ⟨entry.2.seq, rfl⟩
  · obtain ⟨bound, -, rfl⟩ := List.mem_map.mp h
    exact ⟨bound, rfl⟩

end Tombstones

/-! ## Tables that are the same -/

/-- Two merges left a table of the columns `schema` the same: the same rows, cell by cell, in
    whatever batches, and of each key the same tombstone past the same bound. -/
structure SameTable (schema : Schema) (encode : KeyCells D key → Bytes) (left right : Merged D) :
    Prop where
  rows : (readBack schema left.rows).Perm (readBack schema right.rows)
  guards : ∀ k, storedGuard encode (storedUnder key left.tombstones) k
    = storedGuard encode (storedUnder key right.tombstones) k

end Rdlt.Merge
