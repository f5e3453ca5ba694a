/-
  Rdlt.Identity.Value

  The values identity tells apart, whatever carries them, and the encoding of
  each: every value starts with its kind's tag, every field with its own, and
  every name, text, byte string and number with its length, so no encoding is a
  prefix of another.
-/

import Rdlt.Json.Canonical

namespace Rdlt.Identity

open Lib (Delimited Exact withLength)

/-- The kind of a temporal value: dates and timestamps are instants. -/
inductive Kind
  | instant
  | timeOfDay
  | elapsed
  deriving DecidableEq, Repr

/-- A float JSON has no number for. -/
inductive Special
  | nan
  | infinite (negative : Bool)
  deriving DecidableEq, Repr

mutual

/-- A value by what it denotes: a number by its exact value, a temporal value by its kind and
    nanoseconds, an object by its fields in the order of their names. -/
inductive Value
  | null
  | bool (value : Bool)
  | number (value : Exact)
  | special (value : Special)
  | string (text : Bytes)
  | bytes (bytes : Bytes)
  | temporal (kind : Kind) (nanos : ℤ)
  | object (fields : Fields)
  | array (items : Values)
  deriving DecidableEq

inductive Values
  | nil
  | cons (item : Value) (rest : Values)
  deriving DecidableEq

inductive Fields
  | nil
  | cons (name : Bytes) (value : Value) (rest : Fields)
  deriving DecidableEq

end

def Values.ofList : List Value → Values
  | [] => .nil
  | item :: rest => .cons item (.ofList rest)

def Fields.ofList : List (Bytes × Value) → Fields
  | [] => .nil
  | (name, value) :: rest => .cons name value (.ofList rest)

/-! ## Encodings -/

def nullTag : Byte := 110
def trueTag : Byte := 116
def falseTag : Byte := 102
def numberTag : Byte := 100
def stringTag : Byte := 115
def bytesTag : Byte := 98
def instantTag : Byte := 105
def timeOfDayTag : Byte := 99
def elapsedTag : Byte := 101
def objectTag : Byte := 123
def objectEnd : Byte := 125
def arrayTag : Byte := 91
def arrayEnd : Byte := 93
def fieldTag : Byte := 107

def Kind.tag : Kind → Byte
  | .instant => instantTag
  | .timeOfDay => timeOfDayTag
  | .elapsed => elapsedTag

/-- The name a float JSON has no number for is written as. -/
def Special.text : Special → Bytes
  | .nan => [78, 97, 78]
  | .infinite negative => (if negative then [Json.minusByte] else []) ++ [105, 110, 102]

/-- What the tag of an encoding says of its value. -/
inductive Shape
  | null
  | bool (value : Bool)
  | number
  | string
  | bytes
  | temporal (kind : Kind)
  | object
  | array
  deriving DecidableEq, Repr

def Shape.tag : Shape → Byte
  | .null => nullTag
  | .bool value => if value then trueTag else falseTag
  | .number => numberTag
  | .string => stringTag
  | .bytes => bytesTag
  | .temporal kind => kind.tag
  | .object => objectTag
  | .array => arrayTag

def Value.shape : Value → Shape
  | .null => .null
  | .bool value => .bool value
  | .number _ => .number
  | .special _ => .number
  | .string _ => .string
  | .bytes _ => .bytes
  | .temporal kind _ => .temporal kind
  | .object _ => .object
  | .array _ => .array

mutual

noncomputable def Value.write : Value → Bytes
  | .null => [nullTag]
  | .bool value => [if value then trueTag else falseTag]
  | .number value => numberTag :: withLength (Json.exactText value)
  | .special value => numberTag :: withLength value.text
  | .string text => stringTag :: withLength text
  | .bytes bytes => bytesTag :: withLength bytes
  | .temporal kind nanos => kind.tag :: withLength (Json.integerText nanos)
  | .object fields => objectTag :: (fields.write ++ [objectEnd])
  | .array items => arrayTag :: (items.write ++ [arrayEnd])

noncomputable def Values.write : Values → Bytes
  | .nil => []
  | .cons item rest => item.write ++ rest.write

noncomputable def Fields.write : Fields → Bytes
  | .nil => []
  | .cons name value rest => fieldTag :: (withLength name ++ (value.write ++ rest.write))

end

theorem Values.write_ofList (items : List Value) :
    (Values.ofList items).write = items.flatMap Value.write := by
  induction items with
  | nil => rfl
  | cons item rest ih => rw [ofList, write, ih, List.flatMap_cons]

theorem Fields.write_ofList (fields : List (Bytes × Value)) : (Fields.ofList fields).write
      = fields.flatMap fun field => fieldTag :: (withLength field.1 ++ field.2.write) := by
  induction fields with
  | nil => rfl
  | cons field rest ih =>
    rw [ofList, write, ih, List.flatMap_cons, List.cons_append, List.append_assoc]

/-! ## No encoding is a prefix of another -/

theorem Special.text_injective : Function.Injective Special.text := by
  intro left right h
  cases left with
  | nan =>
    cases right with
    | nan => rfl
    | infinite negative => cases negative <;> exact absurd h (by decide)
  | infinite negative =>
    cases right with
    | nan => cases negative <;> exact absurd h (by decide)
    | infinite negative' =>
        cases negative <;> cases negative' <;> first | rfl | exact absurd h (by decide)

theorem exactText_ne_special (exact : Exact) (special : Special) :
    Json.exactText exact ≠ special.text := by
  have hnan : Json.exactText exact ≠ [78, 97, 78] ∧ _ :=
    Json.exactText_ne_name exact (by decide) (by decide)
  have hinfinite : Json.exactText exact ≠ [105, 110, 102] ∧ _ :=
    Json.exactText_ne_name exact (by decide) (by decide)
  cases special with
  | nan => exact hnan.1
  | infinite negative =>
    cases negative with
    | false => exact hinfinite.1
    | true => exact hinfinite.2

theorem Shape.tag_injective : Function.Injective Shape.tag := by
  intro left right h
  rcases left with _ | ⟨_ | _⟩ | _ | _ | _ | ⟨_ | _ | _⟩ | _ | _ <;>
    rcases right with _ | ⟨_ | _⟩ | _ | _ | _ | ⟨_ | _ | _⟩ | _ | _ <;>
    first | rfl | exact absurd h (by decide)

theorem Shape.tag_ne_arrayEnd (shape : Shape) : shape.tag ≠ arrayEnd := by
  rcases shape with _ | ⟨_ | _⟩ | _ | _ | _ | ⟨_ | _ | _⟩ | _ | _ <;> decide

theorem Value.write_tag (value : Value) : ∃ body, value.write = value.shape.tag :: body := by
  cases value <;> exact ⟨_, rfl⟩

theorem Value.shape_eq {left right : Value} {s t : Bytes} (h : left.write ++ s = right.write ++ t) :
    left.shape = right.shape := by
  obtain ⟨body, hleft⟩ := left.write_tag
  obtain ⟨body', hright⟩ := right.write_tag
  rw [hleft, hright] at h
  exact Shape.tag_injective (List.cons.inj h).1

theorem eq_of_withLength {tag : Byte} {left right s t : Bytes}
    (h : tag :: withLength left ++ s = tag :: withLength right ++ t) : left = right ∧ s = t :=
  Lib.delimited_withLength (List.cons.inj h).2

mutual

theorem Value.delimited (left right : Value) {s t : Bytes}
    (h : left.write ++ s = right.write ++ t) :
    left = right ∧ s = t := by
  -- values written alike are of one shape
  have hshape := Value.shape_eq h
  cases left <;> cases right <;> cases hshape
  case null => exact ⟨rfl, (List.cons.inj h).2⟩
  case bool => exact ⟨rfl, (List.cons.inj h).2⟩
  case number.number =>
    obtain ⟨htext, rfl⟩ := eq_of_withLength h
    exact ⟨congrArg Value.number (Json.exactText_injective htext), rfl⟩
  case number.special => exact absurd (eq_of_withLength h).1 (exactText_ne_special _ _)
  case special.number => exact absurd (eq_of_withLength h).1.symm (exactText_ne_special _ _)
  case special.special =>
    obtain ⟨htext, rfl⟩ := eq_of_withLength h
    exact ⟨congrArg Value.special (Special.text_injective htext), rfl⟩
  case string =>
    obtain ⟨rfl, rfl⟩ := eq_of_withLength h
    exact ⟨rfl, rfl⟩
  case bytes =>
    obtain ⟨rfl, rfl⟩ := eq_of_withLength h
    exact ⟨rfl, rfl⟩
  case temporal kind _ _ =>
    obtain ⟨htext, rfl⟩ := eq_of_withLength h
    exact ⟨congrArg (Value.temporal kind) (Json.integerText_injective htext), rfl⟩
  case object fields _ =>
    rw [Value.write, Value.write, List.cons_append, List.cons_append, List.append_assoc,
      List.append_assoc] at h
    obtain ⟨rfl, rfl⟩ := Fields.delimited fields _ (List.cons.inj h).2
    exact ⟨rfl, rfl⟩
  case array items _ =>
    rw [Value.write, Value.write, List.cons_append, List.cons_append, List.append_assoc,
      List.append_assoc] at h
    obtain ⟨rfl, rfl⟩ := Values.delimited items _ (List.cons.inj h).2
    exact ⟨rfl, rfl⟩

theorem Values.delimited : ∀ (left right : Values) {s t : Bytes},
    left.write ++ arrayEnd :: s = right.write ++ arrayEnd :: t → left = right ∧ s = t
  | .nil, .nil, s, t, h => ⟨rfl, (List.cons.inj h).2⟩
  | .nil, .cons item rest, s, t, h => by
    obtain ⟨body, hitem⟩ := item.write_tag
    rw [Values.write, Values.write, hitem] at h
    exact absurd (List.cons.inj h).1.symm item.shape.tag_ne_arrayEnd
  | .cons item rest, .nil, s, t, h => by
    obtain ⟨body, hitem⟩ := item.write_tag
    rw [Values.write, Values.write, hitem] at h
    exact absurd (List.cons.inj h).1 item.shape.tag_ne_arrayEnd
  | .cons item rest, .cons item' rest', s, t, h => by
    rw [Values.write, Values.write, List.append_assoc, List.append_assoc] at h
    obtain ⟨rfl, hrest⟩ := Value.delimited item item' h
    obtain ⟨rfl, rfl⟩ := Values.delimited rest rest' hrest
    exact ⟨rfl, rfl⟩

theorem Fields.delimited : ∀ (left right : Fields) {s t : Bytes},
    left.write ++ objectEnd :: s = right.write ++ objectEnd :: t → left = right ∧ s = t
  | .nil, .nil, s, t, h => ⟨rfl, (List.cons.inj h).2⟩
  | .nil, .cons name value rest, s, t, h => absurd (List.cons.inj h).1 (by decide)
  | .cons name value rest, .nil, s, t, h => absurd (List.cons.inj h).1 (by decide)
  | .cons name value rest, .cons name' value' rest', s, t, h => by
    rw [Fields.write, Fields.write] at h
    simp only [List.cons_append, List.append_assoc] at h
    obtain ⟨rfl, hvalue⟩ := Lib.delimited_withLength (List.cons.inj h).2
    obtain ⟨rfl, hrest⟩ := Value.delimited value value' hvalue
    obtain ⟨rfl, rfl⟩ := Fields.delimited rest rest' hrest
    exact ⟨rfl, rfl⟩

end

theorem delimited_write : Delimited Value.write := fun left right _ _ h =>
  Value.delimited left right h

end Rdlt.Identity
