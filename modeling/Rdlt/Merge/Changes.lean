/-
  Rdlt.Merge.Changes

  Merging a change stream's rows: each row applies in sequence order, only when
  its sequence is greater than the published row's, as an insert, update,
  delete or truncate.
-/

import Rdlt.Merge.Table
import Rdlt.Merge.Written

namespace Rdlt.Merge

variable {D : Type} {schema : Schema} {key : MergeKey}

/-! ## Keys and sequences of the sources -/

def Sources.keyCells (sources : Sources D schema) (key : MergeKey) (place : At) : KeyCells D key :=
  fun index => (schema.indexOf? (key.columns.get index)).bind (sources.cell place)

def comparedBytes (cell : Cell D) : Bytes :=
  match compared cell with
  | .ok bytes => bytes
  | .error _ => []

def Compares (cell : Cell D) : Prop := ∃ bytes, compared cell = .ok bytes

instance (cell : Cell D) : Decidable (Compares cell) :=
  match h : compared cell with
  | .ok bytes => .isTrue ⟨bytes, h⟩
  | .error _ => .isFalse fun ⟨_, hok⟩ => by cases h.symm.trans hok

/-- The column `name` of each source as the bytes an id or a sequence compares by. -/
def sourceBytes (sources : Sources D schema) (name : String) : Except MergeError (At → Bytes) :=
  match schema.indexOf? name with
  | none => .error (unkeyed s!"the table has no column {name}")
  | some column => do
      (places 0 sources.list).forM fun place => do
        let _ ← compared (sources.cell place column)
      pure fun place => comparedBytes (sources.cell place column)

/-! ## Unchanged flags -/

/-- The unchanged flags of one written batch: each row's bitmap over the batch's fields, the stored
    column each field is, none for a field the table does not store, and whether each stored column
    is one every change sets. -/
structure Flags (schema : Schema) where
  bitmaps : List (Option Bytes)
  stored : List (Option schema.Column)
  setAlways : schema.Column → Bool

def binaryOf : Cell D → Except MergeError (Option Bytes)
  | none => .ok none
  | some (.bytes b) => .ok (some b)
  | some value =>
    .error (.refused .typeUnconvertible
      s!"no conversion from {value.kind} to Binary keeps every value")

namespace Flags

/-- The flags of `raw`, a written batch of a table of `schema` merged by `key`, where its rows
    carry any. -/
def ofBatch (schema : Schema) (key : MergeKey) (changes : ChangeColumns) (raw : Batch D) :
    Except MergeError (Option (Flags schema)) :=
  match changes.unchanged.filter raw.hasColumn with
  | none => .ok none
  | some column => do
      let bitmaps ← (raw.column column).mapM binaryOf
      pure (some
        { bitmaps
          stored := raw.fields.map schema.indexOf?
          setAlways := fun column => key.setAlways (schema.get column) })

def flagged (flags : Flags schema) (bitmap : Bytes) : List schema.Column :=
  flags.stored.zipIdx.filterMap fun (column, ordinal) =>
    if UnchangedFlags.contains bitmap ordinal then column else none

/-- Which stored columns row `row` flags unchanged; none where it flags none. A flag on a key column
    or the sequence, which a change always sets, is an error. -/
def mask (flags : Flags schema) (row : Nat) : Except MergeError (Option (schema.Column → Bool)) :=
  match (flags.bitmaps[row]?).join with
  | none => .ok none
  | some bitmap =>
    let flagged := flags.flagged bitmap
    if flagged.any flags.setAlways then
      .error (.refused .flagOnKey "a change flags its key or sequence column unchanged")
    else .ok (if flagged.isEmpty then none else some fun column => flagged.contains column)

end Flags

/-! ## The changes -/

/-- Whether `left` applies no later than `right`: in sequence order, a truncate before the other
    rows of its sequence. -/
def appliesBefore (left right : Change) : Bool :=
  left.seq < right.seq ∨
    (left.seq = right.seq ∧ (left.op = .truncate ∨ right.op ≠ .truncate))

/-- Every row of `incoming`, the sources from `first` on, with its op and its sequence. -/
def changedRows (sources : Sources D schema) (incoming : List (Batch D)) (first : Nat)
    (column : schema.Column) (seqs : At → Bytes) (changes : ChangeColumns) :
    Except MergeError (List Change) := do
  let rows ← (incoming.zipIdx first).mapM fun (raw, source) => do
    let ops ← ops raw changes
    ops.zipIdx.mapM fun (op, row) =>
      if sources.isNull ⟨source, row⟩ column then
        throw (.refused .sequenceMissing "a change has no sequence")
      else pure { place := ⟨source, row⟩, op, seq := seqs ⟨source, row⟩ : Change }
  pure rows.flatten

/-- Applies `change` to the table and its tombstones, its row keyed by `keys` and flagging the
    columns `mask` says. -/
def applyChange (sources : Sources D schema) (keys : At → Bytes)
    (mask : At → Except MergeError (Option (schema.Column → Bool)))
    (state : Table schema × Tombstones D key) (change : Change) :
    Except MergeError (Table schema × Tombstones D key) :=
  let (table, tombstones) := state
  if change.op = .truncate then
    if tombstones.admits none change.seq then
      pure (table.truncate sources change,
        if table.columns.time.isNone then tombstones.raise change.seq else tombstones)
    else pure state
  else
    let rowKey := keys change.place
    if !tombstones.admits (some rowKey) change.seq then pure state
    else do
      let unchanged ← mask change.place
      let (table, applied) := table.apply sources rowKey change unchanged
      pure (table, match applied with
        | .removed => tombstones.bury rowKey change.seq change.place
        | .held => tombstones.lift rowKey
        | .nothing => tombstones)

def maskAt (flags : List (Option (Flags schema))) (held : Nat) (place : At) :
    Except MergeError (Option (schema.Column → Bool)) :=
  match (flags[place.source - held]?).join with
  | some flags => flags.mask place.row
  | none => .ok none

/-- A merge table's rows once merged, and for a change stream's, the tombstones of the rows it
    removed outright. -/
structure Merged (D : Type) where
  rows : List (Batch D)
  tombstones : List (Batch D)
  deriving DecidableEq

/-- The column a change stream whose deletes are soft marks rows deleted in. -/
def timeColumn (schema : Schema) (deletion : Deletion) : Except MergeError (Option schema.Column) :=
  match deletion with
  | .hard => .ok none
  | .soft time => do
      let column ← indexOf schema time
      pure (some column)

/-- The published rows of a change stream's table, and its tombstones, once `incoming` applies, row
    by row in sequence order, to `published` and `buried`, its tombstones; `encode` is the bytes a
    key compares by. -/
def mergeChanges (schema : Schema) (published buried incoming : List (Batch D)) (key : MergeKey)
    (changes : ChangeColumns) (encode : KeyCells D key → Bytes) : Except MergeError (Merged D) := do
  let schema := stored schema changes
  converter schema key
  let sources : Sources D schema := { list := published ++ incoming }
  let held := published.length
  let keys place := encode (sources.keyCells key place)
  let seqs ← sourceBytes sources key.seq
  let flags ← incoming.mapM (Flags.ofBatch schema key changes)
  let seqColumn ← indexOf schema key.seq
  let rows ← changedRows sources incoming held seqColumn seqs changes
  let sorted := rows.insertionSort fun left right => appliesBefore left right
  let time ← timeColumn schema changes.deletion
  let table := Table.load (places 0 published) keys seqs { seq := seqColumn, time }
  let tombstones ← Tombstones.load encode buried
  let (table, tombstones) ←
    sorted.foldlM (applyChange sources keys (maskAt flags held)) (table, tombstones)
  pure
    { rows := table.assemble sources
      tombstones := tombstones.assemble (sources.keyCells key) }

end Rdlt.Merge
