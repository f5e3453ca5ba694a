/-
  Rdlt.Merge.Key

  How a table merges: its key, the columns that say what a change does, those
  that record a version's life, and what the merge refuses.
-/

import Rdlt.Connector.Change

namespace Rdlt.Merge

/-! ## A table's merge key -/

/-- How a change stream's deletes and truncates remove rows: outright, or marking them deleted
    in the column `time`. -/
inductive Deletion where
  | hard
  | soft (time : String)
  deriving DecidableEq, Repr

/-- The columns that say what each row of a change stream does. -/
structure ChangeColumns where
  op : String
  unchanged : Option String
  deletion : Deletion
  deriving DecidableEq, Repr

/-- The columns a history table records each version's life in. -/
structure HistoryColumns where
  validFrom : String
  validTo : String
  isCurrent : String
  rowHash : String
  deriving DecidableEq, Repr

/-- The root table whose merges replace a child table's rows. -/
structure RootKey where
  table : String
  id : String
  seq : String
  deriving DecidableEq, Repr

/-- How a table's rows merge. -/
structure MergeKey where
  columns : List String
  seq : String
  root : Option RootKey
  changes : Option ChangeColumns
  history : Option HistoryColumns
  deriving DecidableEq, Repr

/-- Whether `name` is a column only written batches carry. -/
def ChangeColumns.directive (changes : ChangeColumns) (name : String) : Bool :=
  name == changes.op || changes.unchanged == some name

/-- The schema a change stream's table stores: `schema` without the columns `changes` names that
    only written batches carry. -/
def stored (schema : Schema) (changes : ChangeColumns) : Schema :=
  schema.filter fun name => !changes.directive name

def MergeKey.setAlways (key : MergeKey) (name : String) : Bool :=
  key.seq == name || key.columns.contains name

/-! ## Refusals -/

/-- The codes the merge refuses under. -/
inductive Code where
  | flagOnKey
  | flagOnMissingColumn
  | flagsInvalid
  | opInvalid
  | sequenceMissing
  | deletionUntimed
  | typeUnconvertible
  | mergeKeyInvalid
  deriving DecidableEq, Repr

def Code.text : Code → String
  | flagOnKey => "flag_on_key"
  | flagOnMissingColumn => "flag_on_missing_column"
  | flagsInvalid => "flags_invalid"
  | opInvalid => "op_invalid"
  | sequenceMissing => "sequence_missing"
  | deletionUntimed => "deletion_untimed"
  | typeUnconvertible => "type_unconvertible"
  | mergeKeyInvalid => "merge_key_invalid"

/-- How a merge fails: it refuses what it was given, or Arrow finds no column of a name or converts
    no value. -/
inductive MergeError where
  | refused (code : Code) (message : String)
  | missing (column : String)
  | cast (message : String)
  deriving DecidableEq, Repr

/-- The refusal of a merge key the rows cannot be merged by. -/
def unkeyed (message : String) : MergeError := .refused .mergeKeyInvalid message

def indexOf (schema : Schema) (name : String) : Except MergeError schema.Column :=
  match schema.indexOf? name with
  | some column => .ok column
  | none => .error (.missing name)

def converter (schema : Schema) (key : MergeKey) : Except MergeError Unit := do
  if key.columns.isEmpty then
    throw (unkeyed "the table is merged by a key of no column")
  if !schema.contains key.seq then
    throw (unkeyed s!"the table has no sequence column {key.seq}")
  match key.columns.find? fun column => !schema.contains column with
  | some column => throw (unkeyed s!"the table has no key column {column}")
  | none => pure ()

/-! ## The bytes a sequence compares by -/

/-- An integer as sixteen bytes that order as the numbers do: its sign bit flipped, from the
    greatest byte. -/
def numberBytes (n : Int) : Bytes :=
  (List.range 16).map fun index => Fin.ofNat 256 ((n + 2 ^ 127).toNat / 256 ^ (15 - index))

/-- A value as the bytes an id or a sequence compares by; a null's are none. -/
def compared {D : Type} : Cell D → Except MergeError Bytes
  | none => .ok []
  | some (.bytes b) => .ok b
  | some (.int n) => .ok (numberBytes n)
  | some value =>
    .error (.refused .typeUnconvertible
      s!"no conversion from {value.kind} to Binary keeps every value")

end Rdlt.Merge
