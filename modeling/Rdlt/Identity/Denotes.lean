/-
  Rdlt.Identity.Denotes

  What a row of a column denotes, and what its encoding keeps. They differ in one
  thing: a field of a struct or a row whose text is JSON's null is kept, as it is
  not null itself, where a null field is not.
-/

import Rdlt.Identity.Encoder

namespace Rdlt.Identity

open Json (Reader Float64 textBytes)

/-! ## Values without their null fields -/

mutual

def Value.stripped : Value → Value
  | .object fields => .object fields.stripped
  | .array items => .array items.stripped
  | value => value

def Values.stripped : Values → Values
  | .nil => .nil
  | .cons item rest => .cons item.stripped rest.stripped

def Fields.stripped : Fields → Fields
  | .nil => .nil
  | .cons name value rest =>
    if value = .null then rest.stripped else .cons name value.stripped rest.stripped

end

/-! ## What a row keeps -/

def floatValue : Float64 → Value
  | .finite shortest => .number shortest.exact
  | .nan => .special .nan
  | .infinite negative => .special (.infinite negative)

def cellValue {α : Type} (values : List (Option α)) (index : Nat) (value : α → Value) : Value :=
  ((cell values index).map value).getD .null

mutual

/-- The row at `index` is kept as a value: a field that is not null is kept, whatever it holds. -/
def Encoder.Keeps : Encoder → Nat → Value → Prop
  | .null, _, kept => kept = .null
  | .boolean values, index, kept => kept = cellValue values index .bool
  | .integer values, index, kept =>
    kept = cellValue values index fun value => .number (.of value 0)
  | .unsigned values, index, kept =>
    kept = cellValue values index fun value => .number (.of value 0)
  | .float values, index, kept => kept = cellValue values index floatValue
  | .text values, index, kept => kept = cellValue values index .string
  | .bytes values, index, kept => kept = cellValue values index .bytes
  | .decimal values scale, index, kept =>
    kept = cellValue values index fun value => .number (.of value (-scale))
  | .temporal type values, index, kept =>
    kept = cellValue values index fun value => .temporal type.kind (nanos type value)
  | .json values, index, kept =>
    match cell values index with
    | none => kept = .null
    | some text => Holds text kept
  | .object nulls fields, index, kept =>
    if nullAt nulls index then kept = .null
    else ∃ members, fields.Keeps index members ∧ kept = .object (.ofList (sortByName members))
  | .array nulls offsets items, index, kept =>
    if nullAt nulls index then kept = .null
    else ∃ values, List.Forall₂ (fun item value => items.Keeps item value)
      (span offsets index) values ∧
      kept = .array (.ofList values)

def EncoderFields.Keeps : EncoderFields → Nat → List (Bytes × Value) → Prop
  | .nil, _, members => members = []
  | .cons name encoder rest, index, members =>
    if encoder.isNull index then rest.Keeps index members
    else ∃ value others, encoder.Keeps index value ∧ rest.Keeps index others ∧
      members = (name, value) :: others

end

/-- The row at `index` denotes `value`: a null field, and one whose text is JSON's null, is none. -/
def Encoder.Denotes (encoder : Encoder) (index : Nat) (value : Value) : Prop :=
  ∃ kept, encoder.Keeps index kept ∧ kept.stripped = value

/-! ## What arrays of supported types hold -/

def EncoderFields.names : EncoderFields → List Bytes
  | .nil => []
  | .cons name _ rest => name :: rest.names

mutual

/-- What the types of an encoder's arrays hold: integers of 64 bits, decimals of up to 256 with a
    scale that is not negative, texts that offsets of 32 bits tell, fields of distinct names in
    order. -/
def Encoder.Supported : Encoder → Prop
  | .integer values => ∀ value, some value ∈ values → -2 ^ 63 ≤ value ∧ value < 2 ^ 63
  | .unsigned values => ∀ value, some value ∈ values → value < 2 ^ 64
  | .decimal values scale =>
    0 ≤ scale ∧ scale ≤ 127 ∧ ∀ value, some value ∈ values → value.natAbs ≤ 2 ^ 255
  | .json values => ∀ text, some text ∈ values → text.length < textBytes
  | .object _ fields => fields.names.Pairwise (· < ·) ∧ fields.Supported
  | .array _ _ items => items.Supported
  | _ => True

def EncoderFields.Supported : EncoderFields → Prop
  | .nil => True
  | .cons _ encoder rest => encoder.Supported ∧ rest.Supported

end

mutual

def Encoder.Accepted : Encoder → Nat → Prop
  | .json values, index =>
    ∀ text, cell values index = some text → ∃ tokens, Json.Accepts (Reader.new text) tokens
  | .object nulls fields, index => nullAt nulls index = false → fields.Accepted index
  | .array nulls offsets items, index =>
    nullAt nulls index = false → ∀ item ∈ span offsets index, items.Accepted item
  | _, _ => True

def EncoderFields.Accepted : EncoderFields → Nat → Prop
  | .nil, _ => True
  | .cons _ encoder rest, index =>
    (encoder.isNull index = false → encoder.Accepted index) ∧ rest.Accepted index

end

def Encoder.HoldsNull : Encoder → Nat → Prop
  | .json values, index => ∃ text, cell values index = some text ∧ Holds text .null
  | _, _ => False

mutual

/-- No field of a struct the row at `index` holds, at any depth, that is not null is a text that
    holds JSON's null. -/
def Encoder.Plain : Encoder → Nat → Prop
  | .object nulls fields, index => nullAt nulls index = false → fields.Plain index
  | .array nulls offsets items, index =>
    nullAt nulls index = false → ∀ item ∈ span offsets index, items.Plain item
  | _, _ => True

def EncoderFields.Plain : EncoderFields → Nat → Prop
  | .nil, _ => True
  | .cons _ encoder rest, index =>
    (encoder.isNull index = false → ¬ encoder.HoldsNull index ∧ encoder.Plain index) ∧
      rest.Plain index

end

end Rdlt.Identity
