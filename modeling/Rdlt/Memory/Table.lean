/-
  Rdlt.Memory.Table

  A table of the destination that keeps tables in process memory: its rows,
  tombstones, generations and staged batches, and how they merge.
-/

import Rdlt.Connector.Commit
import Rdlt.Merge.Children

namespace Rdlt.Memory

open Merge

variable {D : Type}

/-! ## Schemas -/

/-- A table's columns, uniquely named, and their types. -/
structure TableSchema where
  fields : Schema
  type : String → ColumnType
  nodup : fields.Nodup

/-- What Arrow says of types and batches. -/
structure Arrow (D : Type) where
  /-- The type of a batch's column. -/
  columnType : Batch D → String → ColumnType
  /-- The bytes a key compares by. -/
  encode : (key : MergeKey) → KeyCells D key → Bytes
  /-- The narrowest type that holds every value of both. -/
  join : ColumnType → ColumnType → ColumnType
  /-- Whether batches convert to a schema with every value kept; the error where they do not. -/
  holds : List (Batch D) → TableSchema → Except String Unit
  /-- Whether tombstones convert to a schema's key columns; the error where they do not. -/
  buries : List (Batch D) → TableSchema → MergeKey → Except MergeError (Except String Unit)
  memorySize : Batch D → Nat

/-- A reference to a table, as the engine gives one. -/
structure TableRef where
  path : TablePath
  name : String
  generation : Option GenerationId
  merge : Option MergeKey
  deriving DecidableEq

inductive TableChange where
  | create (table : TableRef) (schema : TableSchema)
  | addColumn (table : TableRef) (name : String) (type : ColumnType)
  | widen (table : TableRef) (column : String) (wider : ColumnType)

def TableChange.table : TableChange → TableRef
  | .create table _ => table
  | .addColumn table _ _ => table
  | .widen table _ _ => table

def TableSchema.push (schema : TableSchema) (name : String) (type : ColumnType)
    (h : name ∉ schema.fields) : TableSchema where
  fields := schema.fields ++ [name]
  type := Function.update schema.type name type
  nodup := by
    rw [List.nodup_append]
    refine ⟨schema.nodup, List.nodup_singleton _, ?_⟩
    rintro held hheld _ hname rfl
    rw [List.mem_singleton.mp hname] at hheld
    exact h hheld

def add (join : ColumnType → ColumnType → ColumnType) (table : String) (schema : TableSchema)
    (name : String) (type : ColumnType) : Except ConnectorError TableSchema :=
  if h : name ∈ schema.fields then
    if join (schema.type name) type = schema.type name then .ok schema
    else
      let held := (schema.type name).name
      .error ((ConnectorError.data s!"table {table} already has column {name} as {held}").withCode
        "schema_conflict")
  else .ok (schema.push name type h)

/-- The columns of a table that has `schema` once `change` applies to it; none is a table that
    does not exist yet. -/
def changed (join : ColumnType → ColumnType → ColumnType) (schema : Option TableSchema)
    (change : TableChange) : Except ConnectorError TableSchema :=
  let table := change.table.name
  match schema, change with
  | none, .create _ declared => .ok declared
  | none, _ => .error (ConnectorError.data s!"table {table} does not exist")
  | some schema, .create _ declared =>
    declared.fields.foldlM (fun schema name => add join table schema name (declared.type name))
      schema
  | some schema, .addColumn _ name type => add join table schema name type
  | some schema, .widen _ column wider =>
    if column ∈ schema.fields then
      let held := schema.type column
      -- a column that holds the wider type stays as it is
      .ok { schema with type := Function.update schema.type column (join held wider) }
    else .error (ConnectorError.data s!"table {table} has no column {column}")

/-! ## Tables -/

/-- What a batch is staged under: the pipeline and epoch of the session that staged it, and its
    segment. -/
abbrev StagedKey := PipelineId ×ₗ Epoch ×ₗ SegmentId

instance StagedKey.transCmp : Std.TransCmp (@compare StagedKey LinearOrder.toOrd) := inferInstance

namespace StagedKey

def of (pipeline : PipelineId) (epoch : Epoch) (segment : SegmentId) : StagedKey :=
  toLex (pipeline, toLex (epoch, segment))

def pipeline (key : StagedKey) : PipelineId := (ofLex key).1

def epoch (key : StagedKey) : Epoch := (ofLex (ofLex key).2).1

def segment (key : StagedKey) : SegmentId := (ofLex (ofLex key).2).2

end StagedKey

/-- Batches staged under one segment, each for the table itself or for a replace generation. -/
abbrev Staged (D : Type) := List (Option GenerationId × Batch D)

structure Table (D : Type) where
  /-- The pipeline the table belongs to: the first to refer to it. -/
  owner : Option PipelineId := none
  schema : Option TableSchema := none
  /-- How the table merges; none appends. -/
  merge : Option MergeKey := none
  published : List (Batch D) := []
  tombstones : List (Batch D) := []
  /-- Committed rows of replace generations not yet swapped in. -/
  generations : Lib.OrdMap GenerationId (List (Batch D)) := ∅
  staged : Lib.OrdMap StagedKey (Staged D) := ∅

namespace Table

section

variable (arrow : Arrow D) (table : Table D)

def stagedIn (pipeline : PipelineId) (epoch : Epoch) (segments : SegmentSet) :
    List (StagedKey × Staged D) :=
  table.staged.toList.filter fun entry =>
    entry.1.pipeline == pipeline && entry.1.epoch == epoch && segments.contains entry.1.segment

/-- The schema rows of the table merge under: its own, or else the first staged batch's. -/
def mergeSchema (staged : Staged D) : Except ConnectorError (Schema × (String → ColumnType)) :=
  match table.schema, staged with
  | some schema, _ => .ok (schema.fields, schema.type)
  | none, [] => .error (ConnectorError.internal "merging nothing")
  | none, (_, batch) :: _ => .ok (batch.fields, arrow.columnType batch)

/-- The table's rows, and tombstones, once `staged` is merged in by `key`. -/
def merged (staged : Staged D) (key : MergeKey) : Except ConnectorError (Merged D) := do
  let incoming := staged.map Prod.snd
  let (fields, _) ← table.mergeSchema arrow staged
  (mergeSparse fields table.published table.tombstones incoming key
    (arrow.encode key)).mapError (failed "merging rows")

/-- The child table's rows once `staged` replaces the children of the roots `roots` publish. -/
def mergedChildren (staged : Staged D) (key : MergeKey)
    (root : RootKey) (roots : List (Batch D)) : Except ConnectorError (List (Batch D)) := do
  let incoming := staged.map Prod.snd
  let (fields, type) ← table.mergeSchema arrow staged
  (mergeChildrenSparse arrow.columnType type fields table.published incoming key root
    roots).mapError (failed "merging child rows")

/-- Refuses a batch written for the table where its rows cannot be merged into it. -/
def admits (batch : Batch D) : Except ConnectorError Unit :=
  match table.merge with
  | none => .ok ()
  | some key =>
    (admitted batch (table.schema.map TableSchema.fields) key).mapError (failed "staging rows")

end

/-- Applies `change` to the table's schema, where every row the table holds or has staged, and
    every tombstone, converts to the changed schema with its value kept. -/
def change (arrow : Arrow D) (table : Table D) (change : TableChange) :
    Except ConnectorError (Table D) := do
  let name := change.table.name
  let conflict (error : String) : ConnectorError :=
    (ConnectorError.data s!"table {name} holds a row the change does not fit: {error}").withCode
      "schema_conflict"
  let next ← changed arrow.join table.schema change
  let staged := table.staged.toList.flatMap fun entry => entry.2.map Prod.snd
  let generations := table.generations.toList.flatMap Prod.snd
  (arrow.holds (table.published ++ generations ++ staged) next).mapError conflict
  match table.merge.or change.table.merge with
  | none => pure ()
  | some key =>
    let kept ← (arrow.buries table.tombstones next key).mapError (failed "reading tombstones")
    kept.mapError conflict
  pure { table with schema := some next }

end Table

/-- Refuses `key` as the merge key of the table `name` unless it names a key column and, where the
    table's columns are known, each column it names is the table's. -/
def holdsKey (name : String) (key : MergeKey) (schema : Option TableSchema) :
    Except ConnectorError Unit :=
  let invalid (what : String) : ConnectorError :=
    (ConnectorError.data what).withCode "merge_key_invalid"
  match key.columns, schema with
  | [], _ => .error (invalid s!"table {name} is merged by a key of no column")
  | _, none => .ok ()
  | rootId :: _, some schema =>
    let keys := if key.root.isSome then [rootId] else key.columns
    let time := match key.changes.map ChangeColumns.deletion with
      | some (.soft time) => [time]
      | _ => []
    let history := key.history.elim [] fun history =>
      [history.validFrom, history.validTo, history.isCurrent, history.rowHash]
    match (keys ++ [key.seq] ++ time ++ history).find? fun column => column ∉ schema.fields with
    | some column =>
      .error (invalid s!"table {name} has no column {column}, which its merge key names")
    | none => .ok ()

end Rdlt.Memory
