/-
  Rdlt.Merge.Table

  A change stream's table while its changes apply: each key's row by where its
  cells come from, and the truncates met so far, applied to a row when it is
  next touched.
-/

import Rdlt.Merge.Tombstones

namespace Rdlt.Merge

variable {D : Type} {schema : Schema}

/-! ## Merged rows -/

/-- Where a merged row's cells come from, but for those set apart: one source row, or for each
    column its own, or null. -/
inductive Cells (schema : Schema) where
  | whole (place : At)
  | mixed (cells : schema.Column → Option At)

/-- A merged row: its sequence, its cells, the cells a deletion marking it gave it in place of its
    own, how many of the table's truncates it has met, and whether one of them, marking it, gave it
    its sequence. -/
structure MergedRow (schema : Schema) where
  seq : Bytes
  cells : Cells schema
  marks : List (schema.Column × Option At)
  met : Nat
  truncated : Bool

namespace MergedRow

def cell (merged : MergedRow schema) (column : schema.Column) : Option At :=
  match merged.marks.find? fun mark => mark.1 == column with
  | some mark => mark.2
  | none =>
    match merged.cells with
    | .whole place => some place
    | .mixed cells => cells column

def mark (merged : MergedRow schema) (column : schema.Column) (place : At) : MergedRow schema :=
  if merged.marks.any fun mark => mark.1 == column then
    { merged with
      marks := merged.marks.map fun mark =>
        if mark.1 == column then (column, some place) else mark }
  else
    { merged with
      marks := (merged.marks ++ [(column, some place)]).insertionSort fun a b => a.1 ≤ b.1 }

/-- Where the row's cells come from, for the merge to assemble. -/
def pick (merged : MergedRow schema) : Pick schema where
  base :=
    match merged.cells with
    | .whole place => .row place
    | .mixed cells => .cells cells
  overlay := merged.marks

end MergedRow

/-! ## The table -/

/-- A truncate the changes applied: its sequence and its row. -/
structure Truncate where
  seq : Bytes
  place : At

/-- Where a change stream's table keeps its sequence and deletion time. -/
structure Columns (schema : Schema) where
  seq : schema.Column
  time : Option schema.Column

inductive Applied where
  | removed
  | held
  | nothing
  deriving DecidableEq, Repr

/-- One incoming row, and what it does. -/
structure Change where
  place : At
  op : ChangeOp
  seq : Bytes
  deriving DecidableEq, Repr

/-- The rows of a table, by key, in the order they were first published. -/
structure Table (schema : Schema) where
  rows : List (Option (MergedRow schema))
  byKey : Lib.OrdMap Bytes Nat
  /-- The truncates applied so far, in sequence order, no two of one sequence. -/
  truncates : List Truncate
  /-- The positions in `truncates` of those that say when they deleted. -/
  timed : List Nat
  columns : Columns schema

def before {σ : Type} [LinearOrder σ] (truncate row : σ) : Bool := truncate ≤ row

/-- The place of the first element of `l`, partitioned by `p`, for which `p` does not hold. -/
def partitionPoint {α : Type} (p : α → Bool) (l : List α) : Nat := (l.takeWhile p).length

/-- Whether a change at `seq` is not sequenced past a row at `current`, whose sequence a truncate
    gave it where `truncated`. -/
def behind {σ : Type} [LinearOrder σ] (current : σ) (truncated : Bool) (seq : σ) : Bool :=
  match compare current seq with
  | .lt => false
  | .eq => !truncated
  | .gt => true

namespace Table

def put (table : Table schema) (key : Bytes) (merged : MergedRow schema) : Table schema :=
  match table.byKey[key]? with
  | some index => { table with rows := table.rows.set index (some merged) }
  | none =>
    { table with
      byKey := table.byKey.insert key table.rows.length
      rows := table.rows ++ [some merged] }

/-- The table holding the rows `published`, keyed by `keys` and sequenced by `seqs`, to which rows
    of the other sources apply. -/
def load (published : List At) (keys seqs : At → Bytes) (columns : Columns schema) : Table schema :=
  published.foldl
    (fun table place =>
      table.put (keys place)
        { seq := seqs place, cells := .whole place, marks := [], met := 0, truncated := false })
    { rows := [], byKey := ∅, truncates := [], timed := [], columns }

def isNull (sources : Sources D schema) (cell : Option At) (column : schema.Column) : Bool :=
  cell.all fun place => sources.isNull place column

section

variable (sources : Sources D schema) (table : Table schema)

/-- Records the truncate `change`. Truncates arrive in sequence order, and a second of one sequence
    finds no row before it that the first left, so it is not kept. -/
def truncate (change : Change) : Table schema :=
  if table.truncates.getLast?.any fun last => last.seq == change.seq then table
  else
    let timed := table.columns.time.any fun time => !sources.isNull change.place time
    { table with
      timed := if timed then table.timed ++ [table.truncates.length] else table.timed
      truncates := table.truncates ++ [{ seq := change.seq, place := change.place }] }

/-- The row `merged` once it meets the truncates it has not met, up to `last`: the first past it
    removes it, or where deletes are soft marks it deleted then, and the last leaves it its
    sequence. -/
def metRow (last : Truncate) (merged : MergedRow schema) : Option (MergedRow schema) :=
  let met := table.truncates.length
  let pending := table.truncates.drop merged.met
  let first := merged.met + partitionPoint (fun truncate => before truncate.seq merged.seq) pending
  -- The row keeps when it was deleted; else the first truncate that says when does.
  let timed := partitionPoint (fun position => position < first) table.timed
  let deletedBy := ((table.timed[timed]?).bind fun position =>
    (table.truncates[position]?).map Truncate.place).getD last.place
  if first = met then some { merged with met }
  else
    match table.columns.time with
    | none => none
    | some time =>
      let marked := merged.mark table.columns.seq last.place
      let marked :=
        if isNull sources (merged.cell time) time then marked.mark time deletedBy else marked
      some { marked with seq := last.seq, met, truncated := true }

/-- Applies to the row at `index` the truncates it has not met. -/
def meet (index : Nat) : Table schema :=
  match table.truncates.getLast? with
  | none => table
  | some last =>
    { table with rows := table.rows.modify index fun slot => slot.bind (table.metRow sources last) }

/-- Applies the delete `change` to the row at `index`, its key's, where there is one: it is removed,
    or where deletes are soft marked deleted then, unless it was already. -/
def delete (key : Bytes) (index : Option Nat) (change : Change) : Table schema × Applied :=
  match table.columns.time with
  | none =>
    match table.byKey[key]? with
    | some held =>
      ({ table with byKey := table.byKey.erase key, rows := table.rows.set held none }, .removed)
    | none => (table, .removed)
  | some time =>
    match index with
    | none => (table, .nothing)
    | some index =>
      let marked (kept : MergedRow schema) : MergedRow schema :=
        let sequenced := kept.mark table.columns.seq change.place
        let timed :=
          if isNull sources (kept.cell time) time then sequenced.mark time change.place
          else sequenced
        { timed with seq := change.seq, truncated := false }
      ({ table with rows := table.rows.modify index (Option.map marked) }, .nothing)

/-- The cells an insert or update at `place` leaves of a key's `current` row: its own, but for the
    columns `unchanged` marks, which the row keeps. -/
def updated (place : At) (unchanged : Option (schema.Column → Bool))
    (current : Option (MergedRow schema)) : Cells schema :=
  match unchanged with
  | none => .whole place
  | some unchanged =>
    .mixed fun column =>
      if unchanged column then current.bind fun current => current.cell column else some place

/-- Applies `change` to the row with `key`, when it is sequenced past it: an insert or update
    keeping the columns `unchanged` marks, or a delete; returns what it did. -/
def apply (key : Bytes) (change : Change)
    (unchanged : Option (schema.Column → Bool)) : Table schema × Applied :=
  let index := table.byKey[key]?
  let table := index.elim table (table.meet sources)
  let current := index.bind fun index => (table.rows[index]?).join
  if current.any fun current => behind current.seq current.truncated change.seq then
    (table, .nothing)
  else if change.op = .delete then table.delete sources key index change
  else
    let merged : MergedRow schema :=
      { seq := change.seq
        cells := updated change.place unchanged current
        marks := []
        met := table.truncates.length
        truncated := false }
    (table.put key merged, .held)

/-- The table once every row has met every truncate. -/
def metAll : Table schema :=
  (List.range table.rows.length).foldl (meet sources) table

end

/-- The rows the table holds once every row has met every truncate, as batches of the columns they
    hold. -/
def assemble (sources : Sources D schema) (table : Table schema) : List (Batch D) :=
  Merge.assemble sources
    ((table.metAll sources).rows.reduceOption.map MergedRow.pick)

end Table

end Rdlt.Merge
