/-
  Rdlt.Identity.Canonical

  Values in the forms identity encodes them in, whatever type holds them:
  temporal values in nanoseconds and decimals as their shortest text.
-/

import Rdlt.Identity.Value

namespace Rdlt.Identity

open Json (exactText integerText minusByte minusOf plainBytes)
open Lib (AllDigits Exact Pointed digitsOf digitsValue isZero joinPoint zeroByte)

/-! ## Decimals -/

variable (n scale : Nat) (mantissa place : ℤ)

/-- `digits` after enough zeros that a whole digit leads the scale's. -/
def padded (digits : Bytes) (scale : Nat) : Bytes :=
  List.replicate (scale + 1 - digits.length) zeroByte ++ digits

/-- The decimal whose unscaled magnitude has `digits`, with `scale` digits after the point and no
    trailing zeros after it. -/
def scaled (negative : Bool) (digits : Bytes) (scale : ℤ) : Bytes :=
  (if negative then [minusByte] else []) ++
    if scale < 0 then digits ++ List.replicate scale.natAbs zeroByte
    else
      let digits := padded digits scale.toNat
      let point := digits.length - scale.toNat
      joinPoint (digits.take point) ((digits.drop point).rdropWhile isZero)

def writeDecimal (unscaled scale : ℤ) : Bytes :=
  scaled (unscaled < 0) (digitsOf unscaled.natAbs) scale

/-! ## Temporal values -/

inductive TimeUnit
  | second
  | millisecond
  | microsecond
  | nanosecond
  deriving DecidableEq, Repr

/-- A type of dates, timestamps, times of day or durations. -/
inductive TemporalType
  | date32
  | date64
  | timestamp (unit : TimeUnit)
  | time (unit : TimeUnit)
  | duration (unit : TimeUnit)
  deriving DecidableEq, Repr

def day : ℤ := 86400000000000

def dayMillis : ℤ := 86400000

def unitNanos : TimeUnit → ℤ
  | .second => 1000000000
  | .millisecond => 1000000
  | .microsecond => 1000
  | .nanosecond => 1

/-- The nanoseconds a value, as a column of its type stores it, denotes. -/
def nanos : TemporalType → ℤ → ℤ
  | .date32, value => value * day
  | .date64, value => value / dayMillis * day
  | .timestamp unit, value => value * unitNanos unit
  | .time unit, value => value * unitNanos unit
  | .duration unit, value => value * unitNanos unit

def TemporalType.kind : TemporalType → Kind
  | .date32 | .date64 | .timestamp _ => .instant
  | .time _ => .timeOfDay
  | .duration _ => .elapsed

/-! ## Numbers are written as the text of their value -/

theorem pointed_digitsOf (n : Nat) : Pointed (digitsOf n) [] :=
  ⟨⟨n, rfl⟩, fun byte hbyte => absurd hbyte List.not_mem_nil, by simp⟩

theorem abs_exact_of :
    |(Exact.of mantissa place).val| = mantissa.natAbs * 10 ^ place := by
  have hpos : (0 : ℚ) < 10 ^ place := zpow_pos (by norm_num) _
  rw [Exact.of, abs_mul, abs_of_pos hpos, Nat.cast_natAbs, Int.cast_abs]

theorem minusOf_exact_of :
    minusOf (Exact.of mantissa place).val = if mantissa < 0 then [minusByte] else [] := by
  have hpos : (0 : ℚ) < 10 ^ place := zpow_pos (by norm_num) _
  have hiff : (Exact.of mantissa place).val < 0 ↔ mantissa < 0 := by
    rw [Exact.of, mul_neg_iff]
    constructor
    · rintro (⟨-, h⟩ | ⟨h, -⟩)
      · exact absurd h (not_lt.mpr hpos.le)
      · exact_mod_cast h
    · exact fun h => .inr ⟨by exact_mod_cast h, hpos⟩
  rw [minusOf]
  simp only [hiff]

theorem integerText_eq {value : ℤ} (h : (digitsOf value.natAbs).length ≤ plainBytes) :
    integerText value = exactText (.of value 0) := by
  have hjoin : joinPoint (digitsOf value.natAbs) [] = digitsOf value.natAbs := if_pos rfl
  rw [Json.exactText_of_pointed (pointed_digitsOf value.natAbs), minusOf_exact_of,
    hjoin, integerText]
  · rw [abs_exact_of, List.append_nil, Lib.digitsValue_digitsOf]
    simp
  · rw [hjoin]
    exact h

theorem length_padded (digits : Bytes) (scale : Nat) :
    (padded digits scale).length = max (scale + 1) digits.length := by
  rw [padded, List.length_append, List.length_replicate]
  omega

theorem allDigits_padded : AllDigits (padded (digitsOf n) scale) := by
  intro byte hbyte
  rcases List.mem_append.mp hbyte with hbyte | hbyte
  · rw [List.eq_of_mem_replicate hbyte]
    rfl
  · exact Lib.allDigits_digitsOf n byte hbyte

/-- The whole digits of a decimal are a number's: zero, or with no zero before them. -/
theorem whole_padded :
    ∃ m, (padded (digitsOf n) scale).take ((padded (digitsOf n) scale).length - scale)
      = digitsOf m := by
  have hlength := length_padded (digitsOf n) scale
  have hpos := List.length_pos_of_ne_nil (Lib.digitsOf_ne_nil n)
  rcases Nat.lt_or_ge (digitsOf n).length (scale + 1) with hshort | hlong
  · refine ⟨0, ?_⟩
    obtain ⟨zeros, hzeros⟩ : ∃ zeros, scale + 1 - (digitsOf n).length = zeros + 1 :=
      ⟨scale - (digitsOf n).length, by omega⟩
    rw [hlength, show max (scale + 1) (digitsOf n).length - scale = 1 by omega, padded, hzeros,
      Lib.digitsOf_zero]
    rfl
  · have hsame : padded (digitsOf n) scale = digitsOf n := by
      rw [padded, show scale + 1 - (digitsOf n).length = 0 by omega]
      rfl
    rw [hsame]
    rcases Nat.eq_zero_or_pos n with rfl | hn
    · refine ⟨0, ?_⟩
      rw [Lib.digitsOf_zero] at hlong ⊢
      rw [show scale = 0 by simpa using hlong]
      rfl
    · refine Lib.exists_digitsOf ?_ ?_ ?_
      · exact fun byte hbyte => Lib.allDigits_digitsOf n byte (List.mem_of_mem_take hbyte)
      · exact List.ne_nil_of_length_pos (by rw [List.length_take]; omega)
      · rw [List.head?_take, if_neg (by omega)]
        exact Lib.head?_digitsOf hn

theorem digitsValue_padded : digitsValue (padded (digitsOf n) scale) = n := by
  rw [padded, Lib.digitsValue_zeros_append, Lib.digitsValue_digitsOf]

theorem writeDecimal_eq {unscaled : ℤ} {scale : Nat}
    (h : max (scale + 1) (digitsOf unscaled.natAbs).length < plainBytes) :
    writeDecimal unscaled scale = exactText (.of unscaled (-scale)) := by
  have hlength := length_padded (digitsOf unscaled.natAbs) scale
  have hwhole := whole_padded unscaled.natAbs scale
  have hdigits := allDigits_padded unscaled.natAbs scale
  have hvalue := digitsValue_padded unscaled.natAbs scale
  have hwrite : writeDecimal unscaled scale = (if unscaled < 0 then [minusByte] else [])
      ++ joinPoint ((padded (digitsOf unscaled.natAbs) scale).take
          ((padded (digitsOf unscaled.natAbs) scale).length - scale))
        (((padded (digitsOf unscaled.natAbs) scale).drop
          ((padded (digitsOf unscaled.natAbs) scale).length - scale)).rdropWhile isZero) := by
    rw [writeDecimal, scaled, if_neg (not_lt.mpr (Int.natCast_nonneg scale)),
      Int.toNat_natCast scale]
    simp only [decide_eq_true_eq]
  generalize padded (digitsOf unscaled.natAbs) scale
    = digits at hlength hwhole hdigits hvalue hwrite
  have hpoint : (digits.drop (digits.length - scale)).length = scale := by
    rw [List.length_drop]
    omega
  have htrim := Lib.length_trim (digits.drop (digits.length - scale))
  have hscaled := Lib.digitsValue_trim (digits.take (digits.length - scale))
    (digits.drop (digits.length - scale))
  have hfraction : AllDigits (digits.drop (digits.length - scale)) := fun byte hbyte =>
    hdigits byte (List.mem_of_mem_drop hbyte)
  have hpointed := Lib.pointed_trim hwhole hfraction
  rw [List.take_append_drop, hvalue] at hscaled
  rw [hpoint] at htrim
  generalize (digits.drop (digits.length - scale)).rdropWhile isZero = fraction
    at htrim hscaled hpointed hwrite
  generalize Lib.trailing (digits.drop (digits.length - scale)) = zeros at htrim hscaled
  rw [hwrite, Json.exactText_of_pointed hpointed, minusOf_exact_of]
  · have hten : (10 : ℚ) ≠ 0 := by norm_num
    have hcast : ((digitsValue (digits.take (digits.length - scale) ++ fraction) : ℕ) : ℚ)
        * 10 ^ zeros = unscaled.natAbs := by exact_mod_cast hscaled
    rw [abs_exact_of, ← hcast, mul_assoc, mul_assoc, ← zpow_natCast (10 : ℚ) fraction.length,
      ← zpow_natCast (10 : ℚ) zeros, ← zpow_add₀ hten, ← zpow_add₀ hten,
      show (zeros : ℤ) + (-(scale : ℤ) + fraction.length) = 0 by omega, zpow_zero, mul_one]
  · rw [Lib.length_joinPoint, List.length_take]
    split <;> omega

end Rdlt.Identity
