/-
  Rdlt.Identity.Encoder

  How an array's values encode, and the hashes made of it: a merge stream's root
  ids, of the key columns' values in order, and a history version's, of the whole
  row. An array is held as what its type stores, a row that is null as none.
-/

import Rdlt.Identity.Canonical
import Rdlt.Identity.Json

namespace Rdlt.Identity

open Json (JsonError Float64)
open Lib (leb128 withLength)

mutual

inductive Encoder
  | null
  | boolean (values : List (Option Bool))
  /-- Integers of any type a signed 64-bit one holds. -/
  | integer (values : List (Option ℤ))
  | unsigned (values : List (Option Nat))
  /-- Floats of any width, as the 64-bit floats they widen to. -/
  | float (values : List (Option Float64))
  | text (values : List (Option Bytes))
  /-- JSON text, encoded as the values it renders. -/
  | json (values : List (Option Bytes))
  | bytes (values : List (Option Bytes))
  /-- Decimals of this scale, by their unscaled values. -/
  | decimal (values : List (Option ℤ)) (scale : ℤ)
  /-- An object: where it is null, and its fields in name order. -/
  | object (nulls : Option (List Bool)) (fields : EncoderFields)
  /-- An array: where it is null, where each row's items start, and the items. -/
  | array (nulls : Option (List Bool)) (offsets : List Nat) (items : Encoder)
  /-- Dates, timestamps, times of day or durations, as their type stores them. -/
  | temporal (type : TemporalType) (values : List (Option ℤ))

inductive EncoderFields
  | nil
  | cons (name : Bytes) (encoder : Encoder) (rest : EncoderFields)

end

def EncoderFields.ofList : List (Bytes × Encoder) → EncoderFields
  | [] => .nil
  | (name, encoder) :: rest => .cons name encoder (.ofList rest)

def nullAt (nulls : Option (List Bool)) (index : Nat) : Bool :=
  match nulls with
  | none => false
  | some nulls => nulls.getD index false

/-- What an array holds at `index`; none where it is null. -/
def cell {α : Type} (values : List (Option α)) (index : Nat) : Option α := values.getD index none

/-- The items of the row at `index`, of an array whose rows' items start at `offsets`. -/
def span (offsets : List Nat) (index : Nat) : List Nat :=
  List.range' (offsets.getD index 0) (offsets.getD (index + 1) 0 - offsets.getD index 0)

/-- A tag and an integer, as its decimal digits after their length. -/
def integer (tag : Byte) (value : ℤ) : Bytes := tag :: withLength (Json.integerText value)

/-- `row` and then `text` after its length: a byte is kept for the length, which a text of 128
    bytes or more widens. -/
def lengthOf (row text : Bytes) : Bytes :=
  let kept := row ++ 0 :: text
  let written := kept.length - row.length - 1
  if written < 0x80 then kept.set row.length (Fin.ofNat 256 written)
  else kept.take row.length ++ leb128 written ++ kept.drop (row.length + 1)

theorem lengthOf_eq (row text : Bytes) : lengthOf row text = row ++ withLength text := by
  have hwritten : (row ++ 0 :: text).length - row.length - 1 = text.length := by
    rw [List.length_append, Nat.add_sub_cancel_left, List.length_cons, Nat.add_sub_cancel]
  rw [lengthOf, withLength, hwritten]
  split
  · next hshort => simp [leb128, hshort]
  · simp

namespace Encoder

def ofFields (nulls : Option (List Bool)) (fields : List (Bytes × Encoder)) : Encoder :=
  .object nulls (.ofList (sortByName fields))

def isNull (encoder : Encoder) (index : Nat) : Bool :=
  match encoder with
  | .null => true
  | .boolean values => (cell values index).isNone
  | .integer values => (cell values index).isNone
  | .unsigned values => (cell values index).isNone
  | .float values => (cell values index).isNone
  | .text values => (cell values index).isNone
  | .json values => (cell values index).isNone
  | .bytes values => (cell values index).isNone
  | .decimal values _ => (cell values index).isNone
  | .object nulls _ => nullAt nulls index
  | .array nulls _ _ => nullAt nulls index
  | .temporal _ values => (cell values index).isNone

end Encoder

/-- The encoding of what an array holds at `index`, by `write` where it is not null. -/
def cellBytes {α : Type} (values : List (Option α)) (index : Nat) (write : α → Bytes) : Bytes :=
  match cell values index with
  | none => [nullTag]
  | some value => write value

mutual

def Encoder.write : Encoder → Nat → Except JsonError Bytes
  | .null, _ => .ok [nullTag]
  | .boolean values, index =>
    .ok (cellBytes values index fun value => [if value then trueTag else falseTag])
  | .integer values, index => .ok (cellBytes values index (integer numberTag))
  | .unsigned values, index => .ok (cellBytes values index fun value => integer numberTag value)
  | .float values, index =>
    .ok (cellBytes values index fun value => lengthOf [numberTag] (Json.writeFloat value))
  | .text values, index => .ok (cellBytes values index fun value => stringTag :: withLength value)
  | .bytes values, index => .ok (cellBytes values index fun value => bytesTag :: withLength value)
  | .decimal values scale, index =>
    .ok (cellBytes values index fun value => lengthOf [numberTag] (writeDecimal value scale))
  | .temporal type values, index =>
    .ok (cellBytes values index fun value => integer type.kind.tag (nanos type value))
  | .json values, index =>
    match cell values index with
    | none => .ok [nullTag]
    | some text => Identity.json text
  | .object nulls fields, index =>
    if nullAt nulls index then .ok [nullTag]
    else (fields.write index).map fun fields => objectTag :: (fields ++ [objectEnd])
  | .array nulls offsets items, index =>
    if nullAt nulls index then .ok [nullTag]
    else ((span offsets index).mapM fun item => items.write item).map fun items =>
      arrayTag :: (items.flatten ++ [arrayEnd])

/-- The encodings of an object's fields that are not null at `index`, each after its name. -/
def EncoderFields.write : EncoderFields → Nat → Except JsonError Bytes
  | .nil, _ => .ok []
  | .cons name encoder rest, index =>
    if encoder.isNull index then rest.write index
    else
      match encoder.write index with
      | .error error => .error error
      | .ok value =>
        (rest.write index).map fun rest => fieldTag :: (withLength name ++ (value ++ rest))

end

/-! ## Hashes -/

/-- What a hash identifies, whose tag its input starts with. -/
inductive Domain
  /-- A merge stream's root row, by its key. -/
  | root
  /-- A history version, by its data. -/
  | version
  deriving DecidableEq, Repr

def Domain.tag : Domain → Byte
  | .root => 1
  | .version => 3

def rowBytes (encoders : List Encoder) (index : Nat) : Except JsonError Bytes :=
  (encoders.mapM fun (encoder : Encoder) => encoder.write index).map List.flatten

section Hashes

variable {Id : Type} (blake3 : Bytes → Id)

def hash (domain : Domain) (bytes : Bytes) : Id := blake3 (domain.tag :: bytes)

/-- The id of the row at `index` as a merge stream's root: of the key columns' values in order. -/
def rootId (key : List Encoder) (index : Nat) : Except JsonError Id :=
  (rowBytes key index).map (hash blake3 .root)

def versionHash (columns : List (Bytes × Encoder)) (index : Nat) : Except JsonError Id :=
  (rowBytes [.ofFields none columns] index).map (hash blake3 .version)

end Hashes

end Rdlt.Identity
