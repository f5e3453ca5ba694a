/-
  Rdlt.Connector.Schema

  A table's schema, its columns addressed by path, and the names a destination
  knows them by: a name map gives each column one identifier and no identifier
  to two columns.
-/

import Rdlt.Types.Logical

namespace Rdlt

/-! ## Columns -/

/-- A column addressed from a table's root: one segment for each nesting level. -/
structure ColumnPath where
  segments : List String
  nonempty : segments ≠ []
  deriving Repr

theorem ColumnPath.segments_injective : Function.Injective ColumnPath.segments := by
  rintro ⟨segments, _⟩ ⟨_, _⟩ rfl
  rfl

instance ColumnPath.linearOrder : LinearOrder ColumnPath :=
  LinearOrder.lift' ColumnPath.segments ColumnPath.segments_injective

/-- A logical type without its parameters. -/
inductive TypeKind where
  | null | bool | int8 | int16 | int32 | int64 | float32 | float64 | decimal | utf8 | binary | date
  | time | timestamp | duration | uuid | json | struct | list
  deriving DecidableEq, Repr

namespace TypeKind

def all : List TypeKind :=
  [null, bool, int8, int16, int32, int64, float32, float64, decimal, utf8, binary, date, time,
    timestamp, duration, uuid, json, struct, list]

def rank (kind : TypeKind) : Nat := all.idxOf kind

theorem rank_injective : Function.Injective rank := by
  intro a b h
  have hmem : ∀ kind : TypeKind, kind ∈ all := by
    intro kind
    cases kind <;> decide
  exact (List.idxOf_inj (hmem a)).mp h

end TypeKind

/-- A table column, as a name map knows it: a source column, or a sibling of one that holds its
    values of another type. -/
inductive ColumnKey where
  | source (column : ColumnPath)
  | variant (column : ColumnPath) (kind : TypeKind)
  deriving Repr

namespace ColumnKey

/-- Whether the key is a variant's, its column, and the kind of values the variant holds. -/
def parts : ColumnKey → Bool ×ₗ ColumnPath ×ₗ Nat
  | .source column => toLex (false, toLex (column, 0))
  | .variant column kind => toLex (true, toLex (column, kind.rank))

theorem parts_injective : Function.Injective parts := by
  intro a b h
  cases a with
  | source column =>
    cases b with
    | source column' =>
      have hcolumn := (Prod.mk.inj (toLex.injective (Prod.mk.inj (toLex.injective h)).2)).1
      rw [hcolumn]
    | variant column' kind' => exact nomatch (Prod.mk.inj (toLex.injective h)).1
  | variant column kind =>
    cases b with
    | source column' => exact nomatch (Prod.mk.inj (toLex.injective h)).1
    | variant column' kind' =>
      obtain ⟨hcolumn, hkind⟩ := Prod.mk.inj (toLex.injective (Prod.mk.inj (toLex.injective h)).2)
      rw [hcolumn, TypeKind.rank_injective hkind]

instance linearOrder : LinearOrder ColumnKey := LinearOrder.lift' parts parts_injective

instance transCmp : Std.TransCmp (@compare ColumnKey LinearOrder.toOrd) := inferInstance

def column : ColumnKey → ColumnPath
  | .source column | .variant column _ => column

end ColumnKey

/-! ## Schemas -/

/-- How deep a schema's types may nest, counting a top-level column as the first level. -/
def nestingDepth : Nat := 64

mutual

/-- How deep a type nests below its field. -/
def typeDepth : Types.LogicalType → Nat
  | .struct fields => fieldsDepth fields
  | .list _ item _ => typeDepth item + 1
  | _ => 0

/-- How deep fields nest, counting a field as the first level. -/
def fieldsDepth : Types.Fields → Nat
  | .nil => 0
  | .cons _ type _ rest => max (typeDepth type + 1) (fieldsDepth rest)

end

/-- The ordered, uniquely named fields of a table. -/
structure TableSchema where
  fields : Types.Fields
  distinct : (fields.toList.map Prod.fst).Nodup
  shallow : fieldsDepth fields ≤ nestingDepth
  deriving DecidableEq, Repr

abbrev SchemaVersion := Nat

/-! ## Name maps -/

/-- A table's columns mapped to destination identifiers, with the column each identifier names. -/
structure NameMap where
  names : Lib.OrdMap ColumnKey String
  owners : Lib.OrdMap String ColumnKey
  mirrored : ∀ (key : ColumnKey) (name : String),
    owners[name]? = some key ↔ names[key]? = some name

namespace NameMap

def empty : NameMap where
  names := ∅
  owners := ∅
  mirrored := by simp

instance : Inhabited NameMap := ⟨empty⟩

end NameMap

end Rdlt
