/-
  Rdlt.Identity.Numbers

  The canonical text of a number denotes it, and is the one text of it: JSON
  numbers, integers, decimals and floats of one value are written alike.
-/

import Rdlt.Identity.Canonical
import Rdlt.Json.Reader

namespace Rdlt.Identity

open Json (ExponentText NumberText ReadNumber ShortestText exactText integerText minusByte
  minusOf plainBytes smallE writeFloat writeNumber)
open Lib (AllDigits Exact Parts digitsOf digitsValue signed zeroByte)

/-! ## A canonical text is a number's -/

theorem signed_abs (value : ℚ) : signed (decide (value < 0)) |value| = value := by
  unfold signed
  by_cases h : value < 0
  · rw [if_pos (decide_eq_true h), abs_of_neg h, neg_neg]
  · rw [if_neg (by simpa using h), abs_of_nonneg (not_lt.mp h)]

theorem leading_digitsOf (n : Nat) :
    digitsOf n = [zeroByte] ∨ (digitsOf n).head? ≠ some zeroByte := by
  rcases Nat.eq_zero_or_pos n with rfl | hpos
  · exact .inl Lib.digitsOf_zero
  · exact .inr (Lib.head?_digitsOf hpos)

def exponentOf (power : ℤ) : ExponentText where
  mark := smallE
  sign := if power < 0 then some minusByte else none
  digits := digitsOf power.natAbs
  mark_eq := .inl rfl
  sign_eq := by
    intro byte hbyte
    split at hbyte
    · cases hbyte
      exact .inl rfl
    · cases hbyte
  all := Lib.allDigits_digitsOf _
  ne_nil := Lib.digitsOf_ne_nil _

theorem bytes_exponentOf (power : ℤ) : (exponentOf power).bytes = smallE :: integerText power := by
  unfold ExponentText.bytes exponentOf integerText
  split <;> rfl

theorem value_exponentOf (power : ℤ) : (exponentOf power).value = power := by
  have hvalue : (exponentOf power).value
      = if (if power < 0 then some minusByte else none) = some minusByte
        then -(digitsValue (digitsOf power.natAbs) : ℤ) else digitsValue (digitsOf power.natAbs) :=
          rfl
  rw [hvalue, Lib.digitsValue_digitsOf]
  by_cases h : power < 0
  · rw [if_pos h, if_pos rfl]
    omega
  · rw [if_neg h, if_neg (by simp)]
    omega

/-- The canonical text of a number is one of it, no zero before its whole part's other digits. -/
theorem exists_numberText (exact : Exact) : ∃ text : NumberText,
    (text.whole = [zeroByte] ∨ text.whole.head? ≠ some zeroByte) ∧ text.bytes = exactText exact ∧
      text.exact = exact := by
  obtain ⟨body, hbody, hexact⟩ := Json.exactText_body exact
  have hsign : ∀ {negative : Bool}, negative = decide (exact.val < 0) →
      (if negative then [minusByte] else []) = minusOf exact.val := by
    rintro _ rfl
    simp [minusOf]
  have hten : (10 : ℚ) ≠ 0 := by norm_num
  cases hbody with
  | @plain whole fraction hpointed hvalue =>
    obtain ⟨n, hwhole⟩ := hpointed.isWhole
    have hall : AllDigits (whole ++ fraction) := fun byte hbyte =>
      (List.mem_append.mp hbyte).elim
        (fun hbyte => Lib.allDigits_digitsOf n byte (hwhole ▸ hbyte)) (hpointed.digits byte)
    refine ⟨⟨decide (exact.val < 0), whole, fraction, none, hall,
      hwhole ▸ Lib.digitsOf_ne_nil n⟩, hwhole ▸ leading_digitsOf n, ?_, ?_⟩
    · rw [NumberText.bytes, NumberText.sign, hsign rfl, hexact]
      simp
    · refine Subtype.ext ?_
      rw [NumberText.exact_val, NumberText.digits, NumberText.power]
      simp only [Option.map_none, Option.getD_none, zero_sub]
      rw [hvalue, mul_assoc, ← zpow_natCast, ← zpow_add₀ hten, add_neg_cancel, zpow_zero, mul_one,
        signed_abs]
  | scientific parts hvalue =>
    have hcut : parts.digits.take 1 ++ parts.digits.drop 1 = parts.digits :=
      List.take_append_drop 1 parts.digits
    have hall : AllDigits (parts.digits.take 1 ++ parts.digits.drop 1) := by
      rw [hcut]
      exact parts.trimmed.all
    have hpos := List.length_pos_of_ne_nil parts.trimmed.ne_nil
    have hne : parts.digits.take 1 ≠ [] := by
      rw [Ne, List.take_eq_nil_iff]
      exact not_or.mpr ⟨one_ne_zero, parts.trimmed.ne_nil⟩
    have hhead : (parts.digits.take 1).head? ≠ some zeroByte := by
      rw [List.head?_take, if_neg one_ne_zero]
      exact parts.trimmed.head
    refine ⟨⟨decide (exact.val < 0), parts.digits.take 1, parts.digits.drop 1,
      some (exponentOf (parts.place + (parts.digits.length - 1 : Nat))), hall, hne⟩,
        .inr hhead, ?_, ?_⟩
    · rw [NumberText.bytes, NumberText.sign, hsign rfl, hexact, Option.map_some, Option.getD_some,
        bytes_exponentOf, Json.scientific]
    · refine Subtype.ext ?_
      have hpower : parts.place + ((parts.digits.length - 1 : Nat) : ℤ)
          - ((parts.digits.drop 1).length : ℤ) = parts.place := by
        rw [List.length_drop]
        omega
      rw [NumberText.exact_val, NumberText.digits, NumberText.power]
      simp only [Option.map_some, Option.getD_some, value_exponentOf, hcut]
      rw [hpower, ← Parts.magnitude, ← parts.abs_value, hvalue, signed_abs]

/-! ## What is written is the canonical text -/

theorem eq_exactText_of_writeNumber {read : ReadNumber} {canonical : Bytes}
    (h : writeNumber read.bytes = .ok canonical) : canonical = exactText read.exact := by
  obtain ⟨hge, hle⟩ := NumberText.exponentValue_lt read.limit
  rw [Json.writeNumber_eq _ ⟨by omega, by omega⟩] at h
  exact Json.eq_of_writeDigits h

theorem length_digitsOf_natAbs {value : ℤ} {k : Nat} (hk : 0 < k) (h : |value| < 10 ^ k) :
    (digitsOf value.natAbs).length ≤ k := by
  refine Lib.length_digitsOf_le hk ?_
  have hcast : ((value.natAbs : ℕ) : ℤ) < ((10 ^ k : ℕ) : ℤ) := by
    rw [Int.natCast_natAbs]
    exact_mod_cast h
  exact_mod_cast hcast

/-- The canonical text of a number is the number: texts of one value are written alike and texts of
    two are told apart, what is written denotes the value, and the integers, decimals and floats of
    a value are written as it. -/
theorem canonical_text_is_the_number :
    (∀ text : Bytes, Json.number text = .ok (text, []) ↔ ∃ read : ReadNumber, read.bytes = text) ∧
    (∀ {read read' : ReadNumber} {canonical canonical' : Bytes},
      writeNumber read.bytes = .ok canonical → writeNumber read'.bytes = .ok canonical' →
        (canonical = canonical' ↔ read.exact = read'.exact)) ∧
    (∀ {read : ReadNumber}, read.bytes.length < 2 ^ 61 →
      writeNumber read.bytes = .ok (exactText read.exact)) ∧
    (∀ {read : ReadNumber} {canonical : Bytes}, writeNumber read.bytes = .ok canonical →
      ∃ text : NumberText, (text.whole = [zeroByte] ∨ text.whole.head? ≠ some zeroByte) ∧
        text.bytes = canonical ∧ text.exact = read.exact) ∧
    (∀ {value : ℤ}, -2 ^ 127 ≤ value → value < 2 ^ 128 →
      integerText value = exactText (.of value 0)) ∧
    (∀ {unscaled : ℤ} {scale : Nat}, -2 ^ 255 ≤ unscaled → unscaled < 2 ^ 255 → scale < 2 ^ 7 →
      writeDecimal unscaled scale = exactText (.of unscaled (-scale))) ∧
    (∀ shortest : ShortestText, writeFloat (.finite shortest) = exactText shortest.exact) := by
  refine ⟨fun text => ⟨fun h => ?_, ?_⟩, ?_, ?_, ?_, ?_, ?_, Json.writeFloat_finite⟩
  · obtain ⟨read, hread, -⟩ := Json.number_ok h
    exact ⟨read, hread.symm⟩
  · rintro ⟨read, rfl⟩
    have hstops : Json.Stops [] := fun byte hbyte => by cases hbyte
    have hread := read.number_eq hstops
    rwa [List.append_nil] at hread
  · intro read read' canonical canonical' h h'
    rw [eq_exactText_of_writeNumber h, eq_exactText_of_writeNumber h',
      Json.exactText_injective.eq_iff]
  · exact fun {read} h => Json.writeNumber_bytes ⟨read.limit, h⟩
  · intro read canonical h
    rw [eq_exactText_of_writeNumber h]
    exact exists_numberText read.exact
  · intro value hge hlt
    have hdigits : |value| < 10 ^ 39 := abs_lt.mpr ⟨by omega, by omega⟩
    have hlength := length_digitsOf_natAbs (by decide) hdigits
    exact integerText_eq (hlength.trans (by decide))
  · intro unscaled scale hge hlt hscale
    have hdigits : |unscaled| < 10 ^ 77 := abs_lt.mpr ⟨by omega, by omega⟩
    have hlength := length_digitsOf_natAbs (by decide) hdigits
    refine writeDecimal_eq (max_lt ?_ ?_) <;> unfold plainBytes <;> omega

/-- `1e1` and `10` are written alike, so they are texts of one number. -/
theorem canonical_text_is_the_number_ten : ∃ read read' : ReadNumber,
    read.bytes = [49, 101, 49] ∧ read'.bytes = [49, 48] ∧ read.exact = read'.exact := by
  obtain ⟨read, hread⟩ := (canonical_text_is_the_number.1 [49, 101, 49]).mp (by decide)
  obtain ⟨read', hread'⟩ := (canonical_text_is_the_number.1 [49, 48]).mp (by decide)
  have hwrite : writeNumber read.bytes = .ok [49, 48] := by
    rw [hread]
    decide +kernel
  have hwrite' : writeNumber read'.bytes = .ok [49, 48] := by
    rw [hread']
    decide +kernel
  exact ⟨read, read', hread, hread', (canonical_text_is_the_number.2.1 hwrite hwrite').mp rfl⟩

end Rdlt.Identity
