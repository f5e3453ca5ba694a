/-
  Rdlt.Merge.Sparse

  A merge's rows by the columns they hold.
-/

import Rdlt.Lib.Group
import Rdlt.Merge.Key

namespace Rdlt.Merge

open Lib

variable {D : Type} {schema : Schema}

/-! ## Sources -/

/-- A row of a source batch. -/
structure At where
  source : Nat
  row : Nat
  deriving DecidableEq, Repr

/-- The batches a merge reads under one schema, the table's. -/
structure Sources (D : Type) (schema : Schema) where
  list : List (Batch D)

def places (first : Nat) : List (Batch D) → List At
  | [] => []
  | batch :: batches => (List.range batch.numRows).map (At.mk first) ++ places (first + 1) batches

namespace Sources

def cell (sources : Sources D schema) (place : At) (column : schema.Column) : Cell D :=
  (sources.list[place.source]?).bind fun batch => batch.cell place.row (schema.get column)

def isNull (sources : Sources D schema) (place : At) (column : schema.Column) : Bool :=
  (sources.cell place column).isNone

/-- The columns the source at `source` holds: those one of its rows holds a value in. -/
def held (sources : Sources D schema) (source : Nat) : List schema.Column :=
  (List.finRange schema.length).filter fun column =>
    (sources.list[source]?).any fun batch =>
      (batch.column (schema.get column)).any Option.isSome

end Sources

/-! ## Picks -/

/-- Where the cells of a merged row come from but for those set apart: one source row, or for
    each column its own, or null. -/
inductive Base (schema : Schema) where
  | row (place : At)
  | cells (cells : schema.Column → Option At)

/-- Where a merged row's cells come from; `overlay` sets columns apart, by ascending column. -/
structure Pick (schema : Schema) where
  base : Base schema
  overlay : List (schema.Column × Option At)

namespace Pick

/-- The row the cell at `column` comes from; none for a null. -/
def cell (pick : Pick schema) (column : schema.Column) : Option At :=
  match pick.overlay.find? fun entry => entry.1 == column with
  | some entry => entry.2
  | none =>
    match pick.base with
    | .row place => some place
    | .cells cells => cells column

/-- The row every cell comes from, where one row gives them all. -/
def whole (pick : Pick schema) : Option At :=
  match pick.base with
  | .row place => if pick.overlay.isEmpty then some place else none
  | .cells _ => none

def value (sources : Sources D schema) (pick : Pick schema) (column : schema.Column) : Cell D :=
  (pick.cell column).bind fun place => sources.cell place column

/-- The columns the picked row holds: those its cell comes from a source that holds it. -/
def shape (sources : Sources D schema) (pick : Pick schema) : List schema.Column :=
  (List.finRange schema.length).filter fun column =>
    (pick.cell column).any fun place => column ∈ sources.held place.source

end Pick

/-! ## Batches of the columns their rows hold -/

def heldBatch (columns : List schema.Column) (rows : List (schema.Column → Cell D)) : Batch D where
  fields := columns.map schema.get
  rows := rows.map columns.map
  shaped := by
    intro row hrow
    obtain ⟨cells, -, rfl⟩ := List.mem_map.mp hrow
    simp

/-- The rows `picks` name as batches, each of the columns its rows hold: rows that are one source
    row whole by source, the others by the columns they hold, and all of the same columns
    together. -/
def assemble (sources : Sources D schema) (picks : List (Pick schema)) : List (Batch D) :=
  let whole := group At.source (picks.filterMap Pick.whole)
  let composed := group (Pick.shape sources) (picks.filter fun pick => pick.whole.isNone)
  let taken := whole.toList.map fun entry =>
    (sources.held entry.1, entry.2.map sources.cell)
  let mixed := composed.toList.map fun entry =>
    (entry.1, entry.2.map (Pick.value sources))
  let shaped := group Prod.fst (taken ++ mixed)
  (shaped.toList.map fun entry => heldBatch entry.1 (entry.2.flatMap Prod.snd)).filter
    fun batch => batch.numRows != 0

abbrev Row (D : Type) (schema : Schema) := schema.Column → Cell D

/-- The rows of `batch`, each under every column of `schema`: a column it does not hold is
    nulls. -/
def readUnder (schema : Schema) (batch : Batch D) : List (Row D schema) :=
  (List.range batch.numRows).map fun row column => batch.cell row (schema.get column)

/-- The rows of `batches` as a reader is given them: under every column of `schema`. -/
def readBack (schema : Schema) (batches : List (Batch D)) : List (Row D schema) :=
  batches.flatMap (readUnder schema)

/-! ## Reading a held batch back -/

variable {sources : Sources D schema} {column : schema.Column}

theorem Sources.cell_of_not_held {place : At} (h : column ∉ sources.held place.source) :
    sources.cell place column = none := by
  simp only [Sources.held, List.mem_filter, List.mem_finRange, true_and, Option.any_eq_true,
    not_exists, not_and] at h
  cases hbatch : sources.list[place.source]? with
  | none => simp [Sources.cell, hbatch]
  | some batch =>
    have hnull := h batch hbatch
    simp only [List.any_eq_true, not_exists, not_and, Batch.column, List.mem_map,
      List.mem_range, Bool.not_eq_true, Option.isSome_eq_false_iff, Option.isNone_iff_eq_none]
      at hnull
    rw [Sources.cell, hbatch, Option.bind_some]
    by_cases hrow : place.row < batch.numRows
    · exact hnull _ ⟨place.row, hrow, rfl⟩
    · have hnone : batch.rows[place.row]? = none := List.getElem?_eq_none (Nat.le_of_not_lt hrow)
      simp [Batch.cell, hnone]

theorem Pick.value_of_not_shape {pick : Pick schema} (h : column ∉ pick.shape sources) :
    pick.value sources column = none := by
  simp only [Pick.shape, List.mem_filter, List.mem_finRange, true_and, Option.any_eq_true,
    decide_eq_true_eq, not_exists, not_and] at h
  unfold Pick.value
  cases hcell : pick.cell column with
  | none => rfl
  | some place => exact Sources.cell_of_not_held (h place hcell)

theorem readUnder_heldBatch (hschema : schema.Nodup) {columns : List schema.Column}
    (hcolumns : columns.Nodup) (rows : List (schema.Column → Cell D))
    (hnull : ∀ row ∈ rows, ∀ column ∉ columns, row column = none) :
    readUnder schema (heldBatch columns rows) = rows := by
  have hfields : (heldBatch columns rows).fields.Nodup :=
    hcolumns.map (List.nodup_iff_injective_get.mp hschema)
  refine List.ext_getElem (by simp [readUnder, Batch.numRows, heldBatch]) ?_
  intro index hread hrows
  simp only [readUnder, List.getElem_map, List.getElem_range]
  funext column
  by_cases hheld : column ∈ columns
  · obtain ⟨spot, hspot, rfl⟩ := List.getElem_of_mem hheld
    have hcell := (heldBatch columns rows).cell_getElem hfields index
      ⟨spot, by simpa [heldBatch] using hspot⟩
    simpa [heldBatch, hrows, hspot] using hcell
  · rw [Batch.cell_of_not_mem, hnull _ (List.getElem_mem hrows) _ hheld]
    intro hmem
    obtain ⟨other, hother, hsame⟩ := List.mem_map.mp hmem
    rw [List.nodup_iff_injective_get.mp hschema hsame] at hother
    exact hheld hother

theorem map_cell_places (schema : Schema) (before batches after : List (Batch D)) :
    (places before.length batches).map (Sources.mk (before ++ batches ++ after)).cell
      = readBack schema batches := by
  induction batches generalizing before with
  | nil => rfl
  | cons batch batches ih =>
    have hrest := ih (before ++ [batch])
    rw [List.length_append, List.length_singleton, List.append_assoc before,
      List.singleton_append] at hrest
    rw [places, List.map_append, hrest, List.map_map, readBack, readBack, List.flatMap_cons]
    congr 1
    refine List.map_congr_left fun row _ => ?_
    funext column
    simp [Sources.cell]

/-! ## Assembling loses and adds no row -/

theorem readBack_filter_numRows (batches : List (Batch D)) :
    readBack schema (batches.filter fun batch => batch.numRows != 0)
      = readBack schema batches := by
  induction batches with
  | nil => rfl
  | cons batch batches ih =>
    rw [readBack, readBack] at ih
    by_cases hrows : batch.numRows = 0
    · have hnone : readUnder schema batch = [] := by simp [readUnder, hrows]
      simp [readBack, hrows, hnone, ih]
    · simp [readBack, hrows, ih]

/-- Gathering rows by the columns they hold and reading the batches back gives the rows. -/
theorem readBack_shaped_perm (hschema : schema.Nodup)
    (entries : List (List schema.Column × List (schema.Column → Cell D)))
    (hnodup : ∀ entry ∈ entries, entry.1.Nodup)
    (hnull : ∀ entry ∈ entries, ∀ row ∈ entry.2, ∀ column ∉ entry.1, row column = none) :
    (readBack schema ((group Prod.fst entries).toList.map fun entry =>
        heldBatch entry.1 (entry.2.flatMap Prod.snd))).Perm
      (entries.flatMap Prod.snd) := by
  have hread : readBack schema ((group Prod.fst entries).toList.map fun entry =>
        heldBatch entry.1 (entry.2.flatMap Prod.snd))
      = ((group Prod.fst entries).toList.flatMap Prod.snd).flatMap Prod.snd := by
    rw [readBack, List.flatMap_map, List.flatMap_assoc]
    refine List.flatMap_congr ?_
    rintro ⟨columns, bucket⟩ hbucket
    have hkeys := key_of_mem_group hbucket
    have hmem : ∀ entry ∈ bucket, entry ∈ entries := by
      intro entry hentry
      refine (group_flatMap_perm Prod.fst entries).mem_iff.mp ?_
      exact List.mem_flatMap.mpr ⟨(columns, bucket), hbucket, hentry⟩
    obtain ⟨first, hfirst⟩ := exists_mem_of_mem_group hbucket
    refine readUnder_heldBatch hschema (hkeys first hfirst ▸ hnodup first (hmem first hfirst)) _ ?_
    intro row hrow column hcolumn
    obtain ⟨entry, hentry, hrow⟩ := List.mem_flatMap.mp hrow
    exact hnull entry (hmem entry hentry) row hrow column (hkeys entry hentry ▸ hcolumn)
  rw [hread]
  exact (group_flatMap_perm Prod.fst entries).flatMap_right _

theorem Pick.value_of_whole {pick : Pick schema} {place : At} (h : pick.whole = some place) :
    pick.value sources = sources.cell place := by
  rcases pick with ⟨⟨base⟩ | ⟨cells⟩, ⟨⟩ | ⟨entry, overlay⟩⟩
  · cases h
    rfl
  all_goals cases h

theorem map_cell_filterMap_whole (sources : Sources D schema) (picks : List (Pick schema)) :
    (picks.filterMap Pick.whole).map sources.cell
      = (picks.filter fun pick => pick.whole.isSome).map (Pick.value sources) := by
  induction picks with
  | nil => rfl
  | cons pick picks ih =>
    cases hwhole : pick.whole with
    | none => simp [hwhole, ih]
    | some place => simp [hwhole, ih, Pick.value_of_whole hwhole]

/-- The batches assembled, read back under every column, hold exactly the rows picked. -/
theorem readBack_assemble_perm (hschema : schema.Nodup) (sources : Sources D schema)
    (picks : List (Pick schema)) :
    (readBack schema (assemble sources picks)).Perm (picks.map (Pick.value sources)) := by
  have hnodup : ∀ p : schema.Column → Bool, ((List.finRange schema.length).filter p).Nodup :=
    fun p => (List.nodup_finRange _).filter p
  rw [assemble, readBack_filter_numRows]
  refine (readBack_shaped_perm hschema _ ?_ ?_).trans ?_
  · intro entry hentry
    rcases List.mem_append.mp hentry with hentry | hentry
    · obtain ⟨held, -, rfl⟩ := List.mem_map.mp hentry
      exact hnodup _
    · obtain ⟨⟨columns, bucket⟩, hbucket, rfl⟩ := List.mem_map.mp hentry
      obtain ⟨pick, hpick⟩ := exists_mem_of_mem_group hbucket
      rw [← key_of_mem_group hbucket pick hpick]
      exact hnodup _
  · intro entry hentry row hrow column hcolumn
    rcases List.mem_append.mp hentry with hentry | hentry
    · obtain ⟨⟨source, bucket⟩, hbucket, rfl⟩ := List.mem_map.mp hentry
      obtain ⟨place, hplace, rfl⟩ := List.mem_map.mp hrow
      apply Sources.cell_of_not_held
      rwa [key_of_mem_group hbucket place hplace]
    · obtain ⟨⟨columns, bucket⟩, hbucket, rfl⟩ := List.mem_map.mp hentry
      obtain ⟨pick, hpick, rfl⟩ := List.mem_map.mp hrow
      apply Pick.value_of_not_shape
      rwa [key_of_mem_group hbucket pick hpick]
  · rw [List.flatMap_append, List.flatMap_map, List.flatMap_map, ← List.map_flatMap,
      ← List.map_flatMap]
    have hwhole := (group_flatMap_perm At.source (picks.filterMap Pick.whole)).map sources.cell
    rw [map_cell_filterMap_whole] at hwhole
    have hmixed := (group_flatMap_perm (Pick.shape sources)
      (picks.filter fun pick => pick.whole.isNone)).map (Pick.value sources)
    refine (hwhole.append hmixed).trans ?_
    rw [← List.map_append]
    refine List.Perm.map _ ?_
    simpa using List.filter_append_perm (fun pick : Pick schema => pick.whole.isSome) picks

end Rdlt.Merge
