/-
  Rdlt.Merge.Refine.Sources

  What a merge reads of its sources: the rows of each batch, in order, and the
  columns it compares rows by.
-/

import Rdlt.Merge.Refine.Tombstones

namespace Rdlt.Merge

open Lib

variable {D : Type} {schema : Schema} {key : MergeKey}

/-! ## Places -/

theorem mem_places {place : At} {first : Nat} {incoming : List (Batch D)} :
    place ∈ places first incoming ↔
      ∃ raw, (raw, place.source) ∈ incoming.zipIdx first ∧ place.row < raw.numRows := by
  induction incoming generalizing first with
  | nil => simp [places]
  | cons raw incoming ih =>
    rw [places, List.mem_append, List.mem_map, List.zipIdx_cons, ih]
    constructor
    · rintro (⟨row, hrow, rfl⟩ | ⟨held, hheld, hrow⟩)
      · exact ⟨raw, List.mem_cons_self, List.mem_range.mp hrow⟩
      · exact ⟨held, List.mem_cons_of_mem _ hheld, hrow⟩
    · rintro ⟨held, hheld, hrow⟩
      rcases List.mem_cons.mp hheld with heq | hheld
      · obtain ⟨rfl, hsource⟩ := Prod.mk.inj heq
        exact .inl ⟨place.row, List.mem_range.mpr hrow, by rw [← hsource]⟩
      · exact .inr ⟨held, hheld, hrow⟩

theorem flatten_places {α : Type} (f : At → α) (first : Nat) (incoming : List (Batch D)) :
    ((incoming.zipIdx first).map fun entry =>
        (List.range entry.1.numRows).map fun row => f ⟨entry.2, row⟩).flatten
      = (places first incoming).map f := by
  induction incoming generalizing first with
  | nil => rfl
  | cons raw incoming ih =>
    rw [List.zipIdx_cons, List.map_cons, List.flatten_cons, ih, places, List.map_append,
      List.map_map]
    rfl

def sourceOf (sources : Sources D schema) (place : At) : Batch D :=
  (sources.list[place.source]?).getD { fields := [], rows := [], shaped := by simp }

theorem cell_sourceOf (sources : Sources D schema) (place : At) (column : schema.Column) :
    sources.cell place column = (sourceOf sources place).cell place.row (schema.get column) := by
  cases hget : sources.list[place.source]? with
  | none => simp [Sources.cell, sourceOf, hget, Batch.cell]
  | some raw => simp [Sources.cell, sourceOf, hget]

section

variable {sources : Sources D schema} {published incoming : List (Batch D)}

theorem getElem?_source (hsources : sources.list = published ++ incoming) {raw : Batch D}
    {source : Nat} (h : (raw, source) ∈ incoming.zipIdx published.length) :
    sources.list[source]? = some raw ∧ raw ∈ incoming ∧
      incoming[source - published.length]? = some raw := by
  obtain ⟨hle, hget⟩ := List.mk_mem_zipIdx_iff_le_and_getElem?_sub.mp h
  refine ⟨?_, List.mem_of_getElem? hget, hget⟩
  rw [hsources, List.getElem?_append_right hle, hget]

theorem map_places {α : Type} (f : Batch D → Nat → α)
    (hsources : sources.list = published ++ incoming) :
    (places published.length incoming).map (fun place => f (sourceOf sources place) place.row)
      = incoming.flatMap fun raw => (List.range raw.numRows).map (f raw) := by
  rw [← flatten_places, List.flatMap_def]
  refine congrArg List.flatten ?_
  calc (incoming.zipIdx published.length).map (fun entry =>
        (List.range entry.1.numRows).map fun row => f (sourceOf sources ⟨entry.2, row⟩) row)
      = (incoming.zipIdx published.length).map
          ((fun raw => (List.range raw.numRows).map (f raw)) ∘ Prod.fst) := by
        refine List.map_congr_left fun entry hentry => List.map_congr_left fun row _ => ?_
        rw [sourceOf, (getElem?_source hsources hentry).1, Option.getD_some]
    _ = incoming.map fun raw => (List.range raw.numRows).map (f raw) := by
        rw [← List.map_map, List.zipIdx_map_fst]

theorem map_cell_all (sources : Sources D schema) :
    (places 0 sources.list).map sources.cell = readBack schema sources.list := by
  simpa using map_cell_places schema [] sources.list []

theorem map_cell_published (published incoming : List (Batch D)) :
    (places 0 published).map (Sources.mk (published ++ incoming)).cell
      = readBack schema published := by
  simpa using map_cell_places schema [] published incoming

end

/-! ## What is compared -/

theorem sourceBytes_eq_ok_iff {sources : Sources D schema} {name : String}
    {column : schema.Column} (hcolumn : schema.indexOf? name = some column) {bytes : At → Bytes} :
    sourceBytes sources name = .ok bytes ↔
      (∀ row ∈ readBack schema sources.list, Compares (row column)) ∧
        bytes = fun place => comparedBytes (sources.cell place column) := by
  have hplaces : (places 0 sources.list).forM (fun place => do
        let _ ← compared (sources.cell place column)) = .ok () ↔
      ∀ row ∈ readBack schema sources.list, Compares (row column) := by
    rw [forM_eq_ok, ← map_cell_all, List.forall_mem_map]
    refine forall₂_congr fun place _ => ?_
    rw [Compares, bind_eq_ok]
    simp [pure_eq_ok]
  rw [sourceBytes, hcolumn]
  constructor
  · intro h
    obtain ⟨⟨⟩, hforM, h⟩ := bind_eq_ok.mp h
    exact ⟨hplaces.mp hforM, (pure_eq_ok.mp h).symm⟩
  · rintro ⟨hrows, rfl⟩
    exact bind_eq_ok.mpr ⟨(), hplaces.mpr hrows, rfl⟩

theorem exists_load_iff {encode : KeyCells D key → Bytes} {buried : List (Batch D)} :
    (∃ tombstones, Tombstones.load encode buried = .ok tombstones) ↔
      ∀ stone ∈ storedUnder key buried, Compares stone.seq := by
  unfold Tombstones.load
  simp only [bind_eq_ok, pure_eq_ok, Compares]
  rw [← exists_mapM_eq_ok_iff]
  constructor
  · rintro ⟨_, seqs, hseqs, -⟩
    exact ⟨seqs, hseqs⟩
  · rintro ⟨seqs, hseqs⟩
    exact ⟨_, seqs, hseqs, rfl⟩

theorem converter_eq_ok (hkeyed : key.columns ≠ [])
    (hnamed : ∀ name ∈ key.columns ++ [key.seq], name ∈ schema) :
    converter schema key = .ok () := by
  have hempty : key.columns.isEmpty = false := by
    simpa [List.isEmpty_iff] using hkeyed
  have hseq : schema.contains key.seq = true := List.contains_iff_mem.mpr (hnamed _ (by simp))
  have hkeys : key.columns.find? (fun column => !schema.contains column) = none := by
    rw [List.find?_eq_none]
    intro column hcolumn
    rw [List.contains_iff_mem.mpr (hnamed column (List.mem_append_left _ hcolumn))]
    decide
  rw [converter]
  simp only [hempty, hseq, hkeys]
  rfl

end Rdlt.Merge
