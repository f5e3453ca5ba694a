/-
  Rdlt.Merge.Refine.Merge

  A merge of batches into a change stream's table, key by key: it succeeds
  exactly when every sequence it reads compares, and what it stores of each key
  is the key's table once the changes of the key are merged into it.
-/

import Rdlt.Merge.Merge
import Rdlt.Merge.Refine.Changes

namespace Rdlt.Merge

open Lib

namespace ChangeTable

variable {D : Type} {T : ChangeTable D}

/-! ## What a merge reads -/

/-- Whether every sequence a merge reads compares. -/
structure Ready (T : ChangeTable D) (published buried incoming : List (Batch D)) : Prop where
  rows : ∀ row ∈ readBack T.stored published, Compares (row T.seqColumn)
  changes : ∀ row ∈ readBack T.stored incoming, Compares (row T.seqColumn)
  stones : ∀ stone ∈ storedUnder T.key buried, Compares stone.seq

theorem indexOf_eq_ok (T : ChangeTable D) : indexOf T.stored T.key.seq = .ok T.seqColumn := by
  rw [indexOf, T.indexOf?_seq]

theorem timeColumn_eq_ok (T : ChangeTable D) :
    timeColumn T.stored T.changes.deletion = .ok T.time := by
  cases hdeletion : T.changes.deletion with
  | hard => simp [timeColumn, time, hdeletion]
  | soft name =>
    obtain ⟨column, hcolumn⟩ := Schema.exists_indexOf? (T.timed name hdeletion).1
    simp only [timeColumn, time, hdeletion, indexOf, hcolumn]
    rfl

/-! ## Where a merge starts -/

/-- A merge starts from what is stored. -/
theorem simulates_load (published incoming : List (Batch D)) {buried : List (Batch D)}
    (hcompares : ∀ row ∈ readBack T.stored published, Compares (row T.seqColumn))
    (hstones : ∀ stone ∈ storedUnder T.key buried, Compares stone.seq)
    {tombstones : Tombstones D T.key} (hload : Tombstones.load T.encode buried = .ok tombstones) :
    let sources : Sources D T.stored := { list := published ++ incoming }
    T.Simulates sources
      (Table.load (places 0 published) (T.keyAt sources)
        (fun place => comparedBytes (sources.cell place T.seqColumn)) T.columns, tombstones)
      (T.view published buried) := by
  intro sources
  have hapart : ∀ time, T.columns.time = some time → time ≠ T.columns.seq :=
    fun time htime => T.time_ne_seq htime
  obtain ⟨hwf, hcolumns, -, -⟩ := Table.load_spec sources (places 0 published)
    (T.keyAt sources) (fun place => comparedBytes (sources.cell place T.seqColumn)) hapart
  obtain ⟨hstone, hbound, hstored, -⟩ := Tombstones.load_eq_ok (sources.keyCells T.key) hload
  refine ⟨hwf, hcolumns, Tombstones.wf_of_load hload, fun k => ?_, fun k => ?_,
    fun k row hrow => ?_, hstored ▸ hstones⟩
  · have hread : (places 0 published).map sources.cell = readBack T.stored published :=
      map_cell_published published incoming
    refine (Table.rowOf_load sources T.key _ _ _ hapart k).trans ?_
    rw [view, rowsOf, ← hread, List.filter_map, List.getLast?_map, Option.map_map]
    rfl
  · rw [Tombstones.guard, hstone, hbound]
    rfl
  · obtain ⟨cells, hcells, rfl⟩ := Option.map_eq_some_iff.mp hrow
    have hmem := List.mem_filter.mp (List.mem_of_getLast? hcells)
    exact ⟨eq_of_beq hmem.2, rfl, hcompares cells hmem.1⟩

/-! ## The merge -/

theorem seq_changeOf (sources : Sources D T.stored) (place : At) :
    (T.changeOf sources place).seq = (T.keyedOf sources place).seq := by
  rw [changeOf, keyedOf, changeAt, show sources.cell place = T.rowAt _ _ from
    funext (cell_sourceOf sources place)]

theorem map_keyedOf_sorted {sources : Sources D T.stored} {published incoming : List (Batch D)}
    (hsources : sources.list = published ++ incoming) :
    (((places published.length incoming).map (T.changeOf sources)).insertionSort
        fun left right => appliesBefore left right).map
          (fun change => T.keyedOf sources change.place)
      = (T.changesOf incoming).insertionSort Keyed.Change.before := by
  refine (List.map_insertionSort (r := fun left right : Change => appliesBefore left right)
    (s := Keyed.Change.before) _ _ ?_).trans ?_
  · intro left hleft right hright
    obtain ⟨place, -, rfl⟩ := List.mem_map.mp hleft
    obtain ⟨place', -, rfl⟩ := List.mem_map.mp hright
    rw [appliesBefore, decide_eq_true_iff, seq_changeOf, seq_changeOf]
    exact Iff.rfl
  · rw [List.map_map]
    exact congrArg _ (map_places T.changeAt hsources)

section

variable {published buried incoming : List (Batch D)} {merged : Merged D}

/-- The tables a merge of admitted batches leaves, and what they store of each key. -/
theorem exists_merge (hadmitted : ∀ raw ∈ incoming, T.Admitted raw) (hnamed : T.Named incoming)
    (hready : T.Ready published buried incoming) : ∃ state : Table T.stored × Tombstones D T.key,
      let sources : Sources D T.stored := { list := published ++ incoming }
      mergeChanges T.schema published buried incoming T.key T.changes T.encode
          = .ok { rows := state.1.assemble sources
                  tombstones := state.2.assemble (sources.keyCells T.key) } ∧
        T.Simulates sources state (T.runKeys (T.view published buried)
          ((T.changesOf incoming).insertionSort Keyed.Change.before)) := by
  let sources : Sources D T.stored := { list := published ++ incoming }
  have hsources : sources.list = published ++ incoming := rfl
  have hrows : ∀ row ∈ readBack T.stored sources.list, Compares (row T.seqColumn) := by
    intro row hrow
    rw [hsources, readBack, List.flatMap_append] at hrow
    exact (List.mem_append.mp hrow).elim (hready.rows row) (hready.changes row)
  obtain ⟨flags, hflags, hmasks⟩ := exists_masks hsources hadmitted
  obtain ⟨tombstones, hload⟩ := exists_load_iff.mpr hready.stones
  -- the rows read, in the order they apply
  let changes := ((places published.length incoming).map (T.changeOf sources)).insertionSort
    fun left right => appliesBefore left right
  have hplace : ∀ change ∈ changes, ∃ place ∈ places published.length incoming,
      T.changeOf sources place = change := by
    intro change hchange
    exact List.mem_map.mp ((List.mem_insertionSort _).mp hchange)
  have hkeyed := map_keyedOf_sorted hsources
  have hmem : ∀ change ∈ changes, T.keyedOf sources change.place ∈ T.changesOf incoming := by
    intro change hchange
    rw [← List.mem_insertionSort Keyed.Change.before, ← hkeyed]
    exact List.mem_map_of_mem hchange
  have hsorted : changes.Pairwise fun left right => left.seq ≤ right.seq := by
    have hle := Keyed.State.pairwise_le_insertionSort (T.changesOf incoming)
    rw [← hkeyed, List.pairwise_map] at hle
    refine hle.imp_of_mem fun {left right} hleft hright h => ?_
    obtain ⟨place, -, rfl⟩ := hplace left hleft
    obtain ⟨place', -, rfl⟩ := hplace right hright
    rwa [seq_changeOf, seq_changeOf]
  obtain ⟨state, hrun, hsimulates⟩ := (simulates_load published incoming hready.rows
    hready.stones hload).run (maskAt flags published.length) changes
    (fun change hchange => by
      obtain ⟨place, hplace, rfl⟩ := hplace change hchange
      exact hmasks place hplace)
    (fun change hchange => proper_of_mem hadmitted hready.changes (hmem change hchange))
    (fun change hchange => hnamed _ (hmem change hchange)) hsorted
    (by
      rw [(Table.load_spec sources _ _ _ fun time htime => T.time_ne_seq htime).2.2.1]
      simp)
  rw [hkeyed] at hsimulates
  refine ⟨state, ?_, hsimulates⟩
  refine bind_eq_ok.mpr ⟨(), converter_eq_ok T.keyed T.named, ?_⟩
  refine bind_eq_ok.mpr ⟨_, (sourceBytes_eq_ok_iff T.indexOf?_seq).mpr ⟨hrows, rfl⟩, ?_⟩
  refine bind_eq_ok.mpr ⟨flags, hflags, ?_⟩
  refine bind_eq_ok.mpr ⟨_, T.indexOf_eq_ok, ?_⟩
  refine bind_eq_ok.mpr ⟨_, changedRows_eq hsources hadmitted fun _ => rfl, ?_⟩
  refine bind_eq_ok.mpr ⟨_, T.timeColumn_eq_ok, ?_⟩
  refine bind_eq_ok.mpr ⟨_, hload, ?_⟩
  exact bind_eq_ok.mpr ⟨state, hrun, rfl⟩

theorem ready_of_mergeChanges
    (h : mergeChanges T.schema published buried incoming T.key T.changes T.encode = .ok merged) :
    T.Ready published buried incoming := by
  obtain ⟨_, _, h⟩ := bind_eq_ok.mp h
  obtain ⟨seqs, hseqs, h⟩ := bind_eq_ok.mp h
  obtain ⟨flags, _, h⟩ := bind_eq_ok.mp h
  obtain ⟨column, _, h⟩ := bind_eq_ok.mp h
  obtain ⟨changes, _, h⟩ := bind_eq_ok.mp h
  obtain ⟨time, _, h⟩ := bind_eq_ok.mp h
  obtain ⟨tombstones, hload, _⟩ := bind_eq_ok.mp h
  have hrows := ((sourceBytes_eq_ok_iff T.indexOf?_seq).mp hseqs).1
  dsimp only at hrows
  rw [readBack, List.flatMap_append] at hrows
  exact
    { rows := fun row hrow => hrows row (List.mem_append_left _ hrow)
      changes := fun row hrow => hrows row (List.mem_append_right _ hrow)
      stones := exists_load_iff.mp ⟨tombstones, hload⟩ }

/-! ## Merges of the table -/

def merge (T : ChangeTable D) (published buried incoming : List (Batch D)) :
    Except MergeError (Merged D) :=
  mergeSparse T.schema published buried incoming T.key T.encode

theorem merge_eq_ok_iff : T.merge published buried incoming = .ok merged ↔
      (∀ raw ∈ incoming, T.Admitted raw) ∧
        mergeChanges T.schema published buried incoming T.key T.changes T.encode = .ok merged := by
  rw [merge, mergeSparse]
  simp only [T.latest, T.changed, bind_eq_ok, Option.elim_some]
  constructor
  · rintro ⟨⟨⟩, hadmitted, h⟩
    exact ⟨forM_eq_ok.mp hadmitted, h⟩
  · rintro ⟨hadmitted, h⟩
    exact ⟨(), forM_eq_ok.mpr hadmitted, h⟩

theorem exists_merge_iff (hnamed : T.Named incoming) :
    (∃ merged, T.merge published buried incoming = .ok merged) ↔
      (∀ raw ∈ incoming, T.Admitted raw) ∧ T.Ready published buried incoming := by
  simp only [merge_eq_ok_iff]
  constructor
  · rintro ⟨merged, hadmitted, h⟩
    exact ⟨hadmitted, ready_of_mergeChanges h⟩
  · rintro ⟨hadmitted, hready⟩
    obtain ⟨state, h, -⟩ := exists_merge hadmitted hnamed hready
    exact ⟨_, hadmitted, h⟩

variable (hnamed : T.Named incoming) (h : T.merge published buried incoming = .ok merged)
include hnamed h

theorem compares_stones : ∀ stone ∈ storedUnder T.key merged.tombstones, Compares stone.seq := by
  obtain ⟨hadmitted, h⟩ := merge_eq_ok_iff.mp h
  obtain ⟨state, hmerged, hsimulates⟩ := exists_merge hadmitted hnamed (ready_of_mergeChanges h)
  cases h.symm.trans hmerged
  intro stone hstone
  rw [Tombstones.storedUnder_assemble state.2 T.distinct] at hstone
  split at hstone
  · obtain ⟨bytes, hbytes⟩ := Tombstones.seq_of_mem_rows hstone
    exact ⟨bytes, by rw [hbytes]; rfl⟩
  · exact hsimulates.kept stone hstone

/-- What a merge stores of each key: the key's table once its changes are merged into it, and no
    row but that one, whose sequence compares. -/
theorem merge_spec (k : Bytes) : T.view merged.rows merged.tombstones k
        = (T.view published buried k).merge T.layout (T.changesFor incoming k) ∧
      T.rowsOf merged.rows k
        = ((T.view merged.rows merged.tombstones k).row.map Keyed.Row.cells).toList ∧
      ∀ row ∈ T.rowsOf merged.rows k, Compares (row T.seqColumn) := by
  obtain ⟨hadmitted, h⟩ := merge_eq_ok_iff.mp h
  obtain ⟨state, hmerged, hsimulates⟩ := exists_merge hadmitted hnamed (ready_of_mergeChanges h)
  cases h.symm.trans hmerged
  generalize (Sources.mk (published ++ incoming) : Sources D T.stored) = sources
    at hsimulates
  dsimp only
  have hkeys : ∀ k row, state.1.rowOf sources T.key k = some row → T.rowKey row.cells = k := by
    intro k row hrow
    rw [hsimulates.row] at hrow
    exact (hsimulates.sound k row hrow).key
  have hrows : T.rowsOf (state.1.assemble sources) k
      = ((state.1.rowOf sources T.key k).map Keyed.Row.cells).toList :=
    Table.filter_readBack_assemble T.stored_nodup hsimulates.wf hkeys k
  have hrun : T.runKeys (T.view published buried)
        ((T.changesOf incoming).insertionSort Keyed.Change.before) k
      = (T.view published buried k).run T.layout
          ((T.changesFor incoming k).insertionSort Keyed.Change.before) := by
    rw [runKeys, filter_insertionSort, changesFor]
  rw [hsimulates.row, hrun] at hrows
  have hsound := hsimulates.sound k
  rw [hrun] at hsound
  have hview : T.view (state.1.assemble sources) (state.2.assemble (sources.keyCells T.key)) k
      = (T.view published buried k).merge T.layout (T.changesFor incoming k) := by
    refine Keyed.State.ext ?_ ?_
    · rw [view, Keyed.State.merge, Keyed.State.stored, hrows]
      cases hrow : ((T.view published buried k).run T.layout
          ((T.changesFor incoming k).insertionSort Keyed.Change.before)).row with
      | none => rfl
      | some row =>
        refine congrArg some (Keyed.Row.ext rfl ?_ rfl)
        exact (hsound row hrow).seq.symm
    · rw [view, Tombstones.storedGuard_assemble hsimulates.stones T.distinct,
        hsimulates.guard, hrun]
      rfl
  refine ⟨hview, ?_, ?_⟩
  · rw [hview, hrows, Keyed.State.merge, Keyed.State.stored, Option.map_map]
    rfl
  · rw [hrows]
    intro cells hcells
    obtain ⟨row, hrow, rfl⟩ := Option.map_eq_some_iff.mp (Option.mem_toList.mp hcells)
    exact (hsound row hrow).compares

end

end ChangeTable

end Rdlt.Merge
