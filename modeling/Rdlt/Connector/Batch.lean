/-
  Rdlt.Connector.Batch

  The data a connector hands over: cells, and batches of rows under named
  columns. A value is what the merge reads of it: an integer of any width, a
  boolean, bytes, or a value of any other type, which the merge only moves.
-/

import Rdlt.Lib.Delimited

namespace Rdlt

variable {schema : Schema} {name : String}

/-! ## Bytes and values -/

abbrev Byte := Fin 256

/-- A byte string, compared bytewise: the order of `List` is the lexicographic one. -/
abbrev Bytes := List Byte

instance Bytes.transCmp : Std.TransCmp (@compare Bytes LinearOrder.toOrd) := inferInstance

/-- A value of a column; `data` is one of a type the merge never reads, named `kind`. -/
inductive Value (D : Type) where
  | int (n : Int)
  | bool (b : Bool)
  | bytes (b : Bytes)
  | data (kind : String) (d : D)
  deriving DecidableEq, Repr

def Value.kind {D : Type} : Value D → String
  | .int _ => "Int64"
  | .bool _ => "Boolean"
  | .bytes _ => "Binary"
  | .data kind _ => kind

abbrev Cell (D : Type) := Option (Value D)

/-! ## Schemas and batches -/

/-- A schema: the names of its columns, in order. -/
abbrev Schema := List String

abbrev Schema.Column (schema : Schema) := Fin schema.length

/-- The place of the first column named `name`. -/
def Schema.indexOf? (schema : Schema) (name : String) : Option schema.Column :=
  schema.finIdxOf? name

/-- A batch of rows, each with a cell for every field. -/
structure Batch (D : Type) where
  fields : Schema
  rows : List (List (Cell D))
  shaped : ∀ row ∈ rows, row.length = fields.length
  deriving DecidableEq

namespace Batch

variable {D : Type}

def numRows (batch : Batch D) : Nat := batch.rows.length

def hasColumn (batch : Batch D) (name : String) : Bool := batch.fields.contains name

/-- The cell of row `row` in the column named `name`; null where the batch has no such column. -/
def cell (batch : Batch D) (row : Nat) (name : String) : Cell D :=
  ((batch.fields.idxOf? name).bind fun index =>
    (batch.rows[row]?).bind fun cells => cells[index]?).join

def column (batch : Batch D) (name : String) : List (Cell D) :=
  (List.range batch.numRows).map fun row => batch.cell row name

end Batch

/-! ## Looking columns up -/

theorem Schema.get_of_indexOf? {column : schema.Column}
    (h : schema.indexOf? name = some column) : schema.get column = name :=
  (List.finIdxOf?_eq_some_iff.mp h).1

theorem Schema.indexOf?_get (hnodup : schema.Nodup) (column : schema.Column) :
    schema.indexOf? (schema.get column) = some column := by
  refine List.finIdxOf?_eq_some_iff.mpr ⟨rfl, ?_⟩
  intro other hlt heq
  exact hlt.ne (List.nodup_iff_injective_get.mp hnodup heq)

theorem Schema.exists_indexOf? (h : name ∈ schema) :
    ∃ column, schema.indexOf? name = some column := by
  rw [← Option.isSome_iff_exists]
  simpa [Schema.indexOf?] using h

def Schema.column (schema : Schema) (name : String) (h : name ∈ schema) : schema.Column :=
  (schema.indexOf? name).get (Option.isSome_iff_exists.mpr (Schema.exists_indexOf? h))

theorem Schema.indexOf?_column (h : name ∈ schema) :
    schema.indexOf? name = some (Schema.column schema name h) :=
  (Option.some_get _).symm

theorem Schema.get_column (h : name ∈ schema) : schema.get (Schema.column schema name h) = name :=
  Schema.get_of_indexOf? (Schema.indexOf?_column h)

theorem Schema.column_ne {name' : String} (h : name ∈ schema)
    (h' : name' ∈ schema) (hne : name ≠ name') :
    Schema.column schema name h ≠ Schema.column schema name' h' := by
  intro heq
  rw [← Schema.get_column h, heq, Schema.get_column h'] at hne
  exact hne rfl

theorem Batch.cell_getElem {D : Type} (batch : Batch D) (hnodup : batch.fields.Nodup) (row : Nat)
    (index : Fin batch.fields.length) : batch.cell row (batch.fields.get index)
      = ((batch.rows[row]?).bind fun cells => cells[index.val]?).join := by
  have hfound : batch.fields.idxOf? (batch.fields.get index) = some index.val := by
    refine List.idxOf?_eq_some_iff.mpr ⟨index.isLt, rfl, ?_⟩
    intro other hlt heq
    have hsame : (⟨other, by omega⟩ : Fin batch.fields.length) = index :=
      List.nodup_iff_injective_get.mp hnodup heq
    exact hlt.ne (congrArg Fin.val hsame)
  rw [Batch.cell, hfound, Option.bind_some]

theorem Batch.cell_of_not_mem {D : Type} (batch : Batch D) (row : Nat)
    (h : name ∉ batch.fields) : batch.cell row name = none := by
  have hnone : batch.fields.idxOf? name = none := by simpa using h
  simp [Batch.cell, hnone]

end Rdlt
