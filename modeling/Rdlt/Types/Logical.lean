/-
  Rdlt.Types.Logical

  Logical types: what a value is, however Arrow or a destination stores it. A
  struct's fields are named; a list's items are one field.
-/

import Rdlt.Lib.Last

namespace Rdlt.Types

open Lib

/-! ## Types -/

def maxDecimalPrecision : Nat := 76

/-- The resolution of a time-based type. -/
inductive TimeUnit where
  | second
  | millisecond
  | microsecond
  | nanosecond
  deriving DecidableEq, Repr

def TimeUnit.rank : TimeUnit → Nat
  | .second => 0
  | .millisecond => 1
  | .microsecond => 2
  | .nanosecond => 3

theorem TimeUnit.rank_injective : Function.Injective TimeUnit.rank := by
  intro a b h
  cases a <;> cases b <;> first | rfl | cases h

instance TimeUnit.linearOrder : LinearOrder TimeUnit :=
  LinearOrder.lift' TimeUnit.rank TimeUnit.rank_injective

structure DecimalType where
  precision : Nat
  scale : Nat
  positive : precision ≠ 0
  bounded : precision ≤ maxDecimalPrecision
  scaled : scale ≤ precision
  deriving DecidableEq, Repr

/-- The decimal of `precision` digits, `scale` of them after the point, where there is one. -/
def DecimalType.new (precision scale : Nat) : Option DecimalType :=
  if h : precision ≠ 0 ∧ precision ≤ maxDecimalPrecision ∧ scale ≤ precision then
    some ⟨precision, scale, h.1, h.2.1, h.2.2⟩
  else none

mutual

inductive LogicalType where
  | null
  | bool
  | int8
  | int16
  | int32
  | int64
  | float32
  | float64
  | decimal (decimal : DecimalType)
  | utf8
  | binary
  | date
  | time (unit : TimeUnit)
  | timestamp (unit : TimeUnit) (zone : Option String)
  | duration (unit : TimeUnit)
  | uuid
  | json
  | struct (fields : Fields)
  | list (name : String) (item : LogicalType) (nullable : Bool)
  deriving DecidableEq, Repr

/-- The fields of a struct, in order: each a name, a type, and whether it may hold nulls. -/
inductive Fields where
  | nil
  | cons (name : String) (type : LogicalType) (nullable : Bool) (rest : Fields)
  deriving DecidableEq, Repr

end

namespace Fields

/-- A field but for its name. -/
abbrev Slot := LogicalType × Bool

def toList : Fields → List (String × Slot)
  | .nil => []
  | .cons name type nullable rest => (name, type, nullable) :: rest.toList

def ofList : List (String × Slot) → Fields
  | [] => .nil
  | (name, type, nullable) :: rest => .cons name type nullable (ofList rest)

@[simp] theorem toList_ofList (l : List (String × Slot)) : (ofList l).toList = l := by
  induction l with
  | nil => rfl
  | cons entry l ih =>
    obtain ⟨name, type, nullable⟩ := entry
    rw [ofList, toList, ih]

def byName (fields : Fields) : OrdMap String Slot :=
  fields.toList.foldl (fun map entry => map.insert entry.1 entry.2) ∅

def ofMap (map : OrdMap String Slot) : Fields := ofList map.toList

theorem getElem?_byName (fields : Fields) (name : String) : fields.byName[name]?
      = lastSome (fun entry : String × Slot => if entry.1 = name then some entry.2 else none)
          fields.toList := by
  rw [byName, OrdMap.getElem?_foldl_insert, Std.ExtTreeMap.getElem?_empty, Option.or_none]

@[simp] theorem byName_ofMap (map : OrdMap String Slot) : (ofMap map).byName = map := by
  refine OrdMap.ext fun name => ?_
  rw [getElem?_byName, ofMap, toList_ofList]
  have h := OrdMap.lastSome_toList map name (fun slot : Slot => slot)
  simpa using h

theorem mem_of_getElem?_byName {fields : Fields} {name : String} {slot : Slot}
    (h : fields.byName[name]? = some slot) : (name, slot) ∈ fields.toList := by
  rw [getElem?_byName] at h
  obtain ⟨⟨other, held⟩, hmem, hslot⟩ := exists_of_lastSome h
  split at hslot
  · rename_i hname
    obtain rfl : other = name := hname
    cases hslot
    exact hmem
  · cases hslot

end Fields

/-! ## The join -/

/-- The name every list item field carries. -/
def listItem : String := "item"

namespace LogicalType

/-- Decimal digits needed for every value of an integer type. -/
def integerDigits : LogicalType → Option Nat
  | .int8 => some 3
  | .int16 => some 5
  | .int32 => some 10
  | .int64 => some 19
  | _ => none

def isFloat : LogicalType → Bool
  | .float32 | .float64 => true
  | _ => false

/-- Whether a 64-bit float holds every value of the type. -/
def isExact : LogicalType → Bool
  | .float32 | .float64 | .int8 | .int16 | .int32 => true
  | _ => false

/-- Whether the types are floats, or a float and an integer type a 64-bit float holds exactly. -/
def isNumericFloatMix (a b : LogicalType) : Bool :=
  (a.isFloat && b.isExact) || (b.isFloat && a.isExact)

/-- A decimal holding `decimal` and a value with `digits` before and `scale` after the point. -/
def joinDecimals (decimal : DecimalType) (digits scale : Nat) : LogicalType :=
  let digits := max (decimal.precision - decimal.scale) digits
  let scale := max decimal.scale scale
  ((DecimalType.new (digits + scale) scale).map LogicalType.decimal).getD .json

/-- The join of two different types neither of which is null, and which do not nest. -/
def joinScalars (a b : LogicalType) : LogicalType :=
  match a.integerDigits, b.integerDigits with
  | some left, some right => if right ≤ left then a else b
  | left?, right? =>
    if isNumericFloatMix a b then .float64
    else
      match a, b with
      | .decimal d, .decimal e => joinDecimals d (e.precision - e.scale) e.scale
      | .decimal d, _ => (right?.map fun digits => joinDecimals d digits 0).getD .json
      | _, .decimal d => (left?.map fun digits => joinDecimals d digits 0).getD .json
      | .timestamp unit zone, .timestamp unit' zone' =>
        .timestamp (max unit unit') (if zone = zone' then zone else some "UTC")
      | .date, .timestamp unit zone | .timestamp unit zone, .date => .timestamp unit zone
      | .time unit, .time unit' => .time (max unit unit')
      | .duration unit, .duration unit' => .duration (max unit unit')
      | _, _ => .json

end LogicalType

mutual

/-- The narrowest type that holds every value of both. -/
def LogicalType.join (a b : LogicalType) : LogicalType :=
  if a = b then a
  else
    match a, b with
    | .null, b => b
    | a, .null => a
    | .struct fields, .struct fields' => .struct (Fields.ofMap
        ((Fields.joinEach fields fields'.byName).foldl (fun map entry => map.insert entry.1 entry.2)
          (fields'.byName.map fun _ slot => (slot.1, true))))
    | .list _ item nullable, .list _ item' nullable' =>
      .list listItem (LogicalType.join item item') (nullable || nullable')
    | a, b => LogicalType.joinScalars a b

/-- Fields, each joined with the one of its name among `others`; one that is not there becomes
    nullable. -/
def Fields.joinEach (fields : Fields) (others : OrdMap String Fields.Slot) :
    List (String × Fields.Slot) :=
  match fields with
  | .nil => []
  | .cons name type nullable rest =>
    (name, match others[name]? with
      | some (type', nullable') => (LogicalType.join type type', nullable || nullable')
      | none => (type, true)) :: Fields.joinEach rest others

end

example : LogicalType.int32.join .float32 = .float64 := by decide +kernel

example : (LogicalType.struct (.cons "b" .int8 false (.cons "a" .date false .nil))).join
      (.struct (.cons "b" .int64 false .nil))
    = .struct (.cons "a" .date true (.cons "b" .int64 false .nil)) := by decide +kernel

end Rdlt.Types
