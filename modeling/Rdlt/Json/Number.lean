/-
  Rdlt.Json.Number

  The canonical text of a JSON number: its value exactly, in one notation that
  follows from the value alone, as integers, decimals and floats render theirs.
  Plain notation where that takes at most 400 bytes, scientific beyond.
-/

import Rdlt.Connector.Batch
import Rdlt.Lib.Decimal

namespace Rdlt.Json

open Lib (AllDigits Exact digitsOf digitsValue isDigit joinPoint pointByte significant signed
  trailing zeroByte)

inductive JsonError
  /-- The text is not JSON. -/
  | invalid (why : String)
  /-- A value nests deeper than the limit. -/
  | tooDeep
  /-- A number's exponent has more digits than the limit. -/
  | exponent
  deriving DecidableEq, Repr

/-- Digits: the most a JSON number's exponent may have, beside its leading zeros. -/
def exponentDigits : Nat := 18

/-- Bytes: the longest a number's canonical text is written in plain notation. -/
def plainBytes : Nat := 400

def minusByte : Byte := 45
def plusByte : Byte := 43
def smallE : Byte := 101
def bigE : Byte := 69

/-! ## Integers of 64 bits -/

/-- Whether a signed integer of 64 bits holds `value`. -/
def fitsI64 (value : ℤ) : Prop := -2 ^ 63 ≤ value ∧ value < 2 ^ 63

instance (value : ℤ) : Decidable (fitsI64 value) := inferInstanceAs (Decidable (_ ∧ _))

/-- `value`, where an integer of 64 bits holds it. -/
def checkedI64 (value : ℤ) : Option ℤ := if fitsI64 value then some value else none

/-- `value`, or the end of an integer of 64 bits it lies past. -/
def saturated (value : ℤ) : ℤ := max (-2 ^ 63) (min value (2 ^ 63 - 1))

/-- The integer of 64 bits `text` writes: an optional sign, then digits. -/
def parseI64 (text : Bytes) : Option ℤ :=
  let (negative, digits) : Bool × Bytes :=
    match text with
    | byte :: rest =>
      if byte = minusByte then (true, rest)
      else if byte = plusByte then (false, rest)
      else (false, text)
    | [] => (false, text)
  if digits ≠ [] ∧ digits.all isDigit then
    checkedI64 (if negative then -digitsValue digits else digitsValue digits)
  else none

def integerText (value : ℤ) : Bytes :=
  (if value < 0 then [minusByte] else []) ++ digitsOf value.natAbs

/-! ## Writing -/

/-- `digits`, with no zero at either end, times ten to `place`, in plain notation; none where that
    is longer than `plainBytes`. -/
def plain (digits : Bytes) (place : ℤ) : Option Bytes :=
  if ¬ fitsI64 digits.length then none
  else if 0 ≤ place then
    if plainBytes < saturated (digits.length + place) then none
    else some (digits ++ List.replicate place.toNat zeroByte)
  else
    -- Where the point goes, counted from the first digit.
    let point := saturated (digits.length + place)
    if 0 < point then
      if plainBytes < saturated (digits.length + 1) then none
      else some (digits.take point.toNat ++ pointByte :: digits.drop point.toNat)
    else
      let leading := saturated (-point)
      if plainBytes < saturated (saturated (leading + digits.length) + 2) then none
      else some ([zeroByte, pointByte] ++ (List.replicate leading.toNat zeroByte ++ digits))

/-- A number's text without its minus sign, and whether it had one. -/
def splitSign (written : Bytes) : Bool × Bytes :=
  match written with
  | byte :: rest => if byte = minusByte then (true, rest) else (false, written)
  | [] => (false, written)

/-- What stands before the first byte `mark` holds of, and what after it where there is one. -/
def splitAtMark (mark : Byte → Bool) (text : Bytes) : Bytes × Option Bytes :=
  (text.takeWhile fun byte => !mark byte, (text.dropWhile fun byte => !mark byte).tail?)

/-- Whether the steps to the place of a number's last significant digit all stay within 64 bits:
    from its exponent back by its fraction, then on by the zeros it ends in. -/
def placeFits (exponent : ℤ) (fraction trailing : Nat) : Prop :=
  fitsI64 fraction ∧ fitsI64 (exponent - fraction) ∧ fitsI64 trailing
    ∧ fitsI64 (exponent - fraction + trailing)

instance (exponent : ℤ) (fraction trailing : Nat) :
    Decidable (placeFits exponent fraction trailing) :=
  inferInstanceAs (Decidable (_ ∧ _))

/-- Whether the power of ten of a number's first digit, and the steps to it, stay within 64 bits. -/
def powerFits (place : ℤ) (count : Nat) : Prop :=
  fitsI64 (count - 1 : Nat) ∧ fitsI64 (place + (count - 1 : Nat))

instance (place : ℤ) (count : Nat) : Decidable (powerFits place count) :=
  inferInstanceAs (Decidable (_ ∧ _))

def scientific (digits : Bytes) (place : ℤ) : Bytes :=
  joinPoint (digits.take 1) (digits.drop 1)
    ++ smallE :: integerText (place + (digits.length - 1 : Nat))

/-- The canonical text of the number of `digits` across the point, `fraction` of them after it, and
    of `exponent`. -/
def writeDigits (negative : Bool) (digits : Bytes) (fraction : Nat) (exponent : ℤ) :
    Except JsonError Bytes :=
  if significant digits = [] then .ok [zeroByte]
  else if ¬ placeFits exponent fraction (trailing digits) then .error .exponent
  else
    -- The value is the significant digits times ten to `place`.
    let place := exponent - fraction + trailing digits
    let sign := if negative then [minusByte] else []
    match plain (significant digits) place with
    | some text => .ok (sign ++ text)
    | none =>
      if ¬ powerFits place (significant digits).length then .error .exponent
      else .ok (sign ++ scientific (significant digits) place)

/-- The canonical text of `written`, a number the reader read. -/
def writeNumber (written : Bytes) : Except JsonError Bytes :=
  let (negative, unsigned) := splitSign written
  let (mantissa, exponent) := splitAtMark (fun byte => byte = smallE ∨ byte = bigE) unsigned
  match parseI64 ((exponent.getD [zeroByte]).dropWhile fun byte => byte = plusByte) with
  | none => .error .exponent
  | some exponent =>
    let (whole, fraction) := splitAtMark (fun byte => byte = pointByte) mantissa
    let fraction := fraction.getD []
    writeDigits negative (whole ++ fraction) fraction.length exponent

/-! ## Numbers as they are written -/

/-- An exponent as it is written: its mark, a sign or none, and its digits. -/
structure ExponentText where
  mark : Byte
  sign : Option Byte
  digits : Bytes
  mark_eq : mark = smallE ∨ mark = bigE
  sign_eq : ∀ byte ∈ sign, byte = minusByte ∨ byte = plusByte
  all : AllDigits digits
  ne_nil : digits ≠ []

namespace ExponentText

def bytes (exponent : ExponentText) : Bytes :=
  exponent.mark :: (exponent.sign.toList ++ exponent.digits)

def value (exponent : ExponentText) : ℤ :=
  if exponent.sign = some minusByte then -digitsValue exponent.digits
  else digitsValue exponent.digits

end ExponentText

/-- A number as it is written: a sign or none, digits around a point or before none, and an exponent
    or none. -/
structure NumberText where
  negative : Bool
  whole : Bytes
  fraction : Bytes
  exponent : Option ExponentText
  all : AllDigits (whole ++ fraction)
  ne_nil : whole ≠ []

namespace NumberText

def sign (number : NumberText) : Bytes := if number.negative then [minusByte] else []

def bytes (number : NumberText) : Bytes :=
  number.sign ++ (joinPoint number.whole number.fraction
    ++ (number.exponent.map ExponentText.bytes).getD [])

/-- The power of ten the number's last digit counts. -/
def power (number : NumberText) : ℤ :=
  (number.exponent.map ExponentText.value).getD 0 - number.fraction.length

def exact (number : NumberText) : Exact :=
  .of (if number.negative then -digitsValue (number.whole ++ number.fraction)
    else digitsValue (number.whole ++ number.fraction)) number.power

end NumberText

/-- The shortest text that reads back as a finite float: at most 17 digits behind four zeros and a
    whole one, and an exponent the least and the greatest float bound. -/
structure ShortestText extends NumberText where
  mark : ∀ held ∈ exponent, held.mark = smallE ∧ held.sign ≠ some plusByte
  digits_le : (whole ++ fraction).length ≤ 24
  exponent_ge : -324 ≤ (exponent.map ExponentText.value).getD 0
  exponent_le : (exponent.map ExponentText.value).getD 0 ≤ 308

/-- A float of 64 bits, by the shortest text that reads back as it where it is finite. -/
inductive Float64
  | finite (shortest : ShortestText)
  | nan
  | infinite (negative : Bool)

def exponentOf (written : Bytes) : ℤ :=
  let (negative, digits) := splitSign written
  (if negative then -1 else 1) * digitsValue digits

/-- The canonical text of a float: read from its shortest text's digits and exponent; of a float
    JSON has no number for, its name. -/
def writeFloat : Float64 → Bytes
  | .nan => [78, 97, 78]
  | .infinite negative => (if negative then [minusByte] else []) ++ [105, 110, 102]
  | .finite shortest =>
    let (negative, written) := splitSign shortest.bytes
    let (mantissa, exponent) := splitAtMark (fun byte => byte = smallE) written
    let exponent := (exponent.map exponentOf).getD 0
    let (whole, fraction) := splitAtMark (fun byte => byte = pointByte) mantissa
    let fraction := fraction.getD []
    let digits := whole ++ fraction
    if significant digits = [] then [zeroByte]
    else
      let place := exponent - fraction.length + trailing digits
      (if negative then [minusByte] else []) ++ (plain (significant digits) place).getD []

end Rdlt.Json
