/-
  Rdlt.Json.Canonical

  The canonical text as a function of the value: plain where that is within the
  limit, else scientific. A number the reader reads and a finite float are
  written as the text of their value, and distinct values have distinct texts.
-/

import Rdlt.Json.Number

namespace Rdlt.Json

open Lib (AllDigits Exact Parts Pointed Trimmed digitOf digitsOf digitsValue isDigit isZero
  joinPoint layout pointByte significant signed trailing zeroByte)

variable {fraction text whole : Bytes} {mark : Byte → Bool} {byte : Byte} {value : ℤ}

/-! ## The text of a value -/

/-- The text of a number other than zero: plain where that is within the limit, else scientific. -/
def partsText (parts : Parts) : Bytes :=
  (if parts.negative then [minusByte] else [])
    ++ (plain parts.digits parts.place).getD (scientific parts.digits parts.place)

/-- The canonical text of a decimal number, which follows from its value alone. -/
noncomputable def exactText (exact : Exact) : Bytes :=
  if h : exact.val = 0 then [zeroByte] else partsText (exact.exists_parts h).choose

theorem exactText_zero {exact : Exact} (h : exact.val = 0) : exactText exact = [zeroByte] :=
  dif_pos h

theorem exactText_parts {exact : Exact} {parts : Parts} (h : parts.value = exact.val) :
    exactText exact = partsText parts := by
  have hne : exact.val ≠ 0 := h ▸ parts.value_ne_zero
  rw [exactText, dif_neg hne]
  congr 1
  exact Parts.value_injective ((exact.exists_parts hne).choose_spec.trans h.symm)

theorem checkedI64_of_fits (h : fitsI64 value) : checkedI64 value = some value := if_pos h

theorem saturated_of_fits (h : fitsI64 value) : saturated value = value := by
  unfold fitsI64 at h
  unfold saturated
  omega

theorem plainBytes_cast : (plainBytes : ℤ) = 400 := rfl

theorem saturated_le {bound : ℤ} (h : -2 ^ 63 ≤ bound) (h' : bound < 2 ^ 63 - 1) :
    saturated value ≤ bound ↔ value ≤ bound := by
  unfold saturated
  omega

/-- The zeros and digits after the point are measured as they are, saturating or not. -/
theorem leading_le {count place : ℤ} (hcount : 0 < count) (hpoint : count + place ≤ 0) :
    saturated (saturated (saturated (-saturated (count + place)) + count) + 2) ≤ plainBytes
      ↔ 2 - place ≤ plainBytes := by
  rw [plainBytes_cast, saturated_le (by norm_num) (by norm_num)]
  have houter : ∀ value : ℤ, saturated value + 2 ≤ 400 ↔ value ≤ 398 := by
    intro value
    have hbound : saturated value ≤ 398 ↔ value ≤ 398 := saturated_le (by norm_num) (by norm_num)
    rw [← hbound]
    omega
  rw [houter]
  constructor
  · intro h
    have hinner : saturated (-saturated (count + place)) ≤ 398 := by omega
    rw [saturated_le (by norm_num) (by norm_num)] at hinner
    have hsame : saturated (count + place) = count + place := by
      unfold saturated at hinner ⊢
      omega
    rw [hsame, saturated_of_fits ⟨by omega, by omega⟩] at h
    omega
  · intro h
    have hsame : saturated (count + place) = count + place := saturated_of_fits ⟨by omega, by omega⟩
    rw [hsame, saturated_of_fits ⟨by omega, by omega⟩]
    omega

section Plain

variable {digits : Bytes} {place : ℤ}

theorem length_le_plainBytes (value : ℤ) (h : (text.length : ℤ) = value) :
    plainBytes < saturated value ↔ ¬ text.length ≤ plainBytes := by
  rw [← not_le, saturated_le (by rw [plainBytes_cast]; norm_num)
    (by rw [plainBytes_cast]; norm_num), ← h, Nat.cast_le]

/-- The digits' layout around the point, where it is within the limit. -/
def laidOut (digits : Bytes) (place : ℤ) : Option Bytes :=
  if (joinPoint (layout digits place).1 (layout digits place).2).length ≤ plainBytes then
    some (joinPoint (layout digits place).1 (layout digits place).2) else none

section

variable (hne : digits ≠ []) (hfits : fitsI64 digits.length)
include hne hfits

theorem plain_of_nonneg (hplace : 0 ≤ place) : plain digits place = laidOut digits place := by
  have hlength := Lib.length_joinPoint_layout hne place
  rw [if_pos hplace] at hlength
  rw [plain, if_neg (not_not.mpr hfits), if_pos hplace]
  simp only [length_le_plainBytes _ hlength, ite_not, laidOut]
  rw [Lib.layout_of_nonneg hplace]
  rfl

theorem plain_of_inside (hplace : place < 0) (hpoint : 0 < digits.length + place) :
    plain digits place = laidOut digits place := by
  have hlength := Lib.length_joinPoint_layout hne place
  rw [if_neg (not_le.mpr hplace), if_pos hpoint] at hlength
  have hexact : saturated (digits.length + place) = digits.length + place := by
    refine saturated_of_fits ⟨by omega, ?_⟩
    have := hfits.2
    omega
  have hdrop : digits.drop ((digits.length : ℤ) + place).toNat ≠ [] :=
    List.ne_nil_of_length_pos (by rw [List.length_drop]; omega)
  rw [plain, if_neg (not_not.mpr hfits), if_neg (not_le.mpr hplace)]
  simp only [hexact, if_pos hpoint, length_le_plainBytes _ hlength, ite_not, laidOut]
  rw [Lib.layout_of_inside hplace hpoint, joinPoint, if_neg hdrop]

theorem plain_of_before (hplace : place < 0) (hpoint : digits.length + place ≤ 0) :
    plain digits place = laidOut digits place := by
  have hlength := Lib.length_joinPoint_layout hne place
  rw [if_neg (not_le.mpr hplace), if_neg (not_lt.mpr hpoint)] at hlength
  have hpos : (0 : ℤ) < digits.length := Nat.cast_pos.mpr (List.length_pos_of_ne_nil hne)
  have hiff := leading_le hpos hpoint
  have hsat : ¬ 0 < saturated (digits.length + place) := by
    rw [not_lt, saturated_le (by norm_num) (by norm_num)]
    exact hpoint
  rw [plain, if_neg (not_not.mpr hfits), if_neg (not_le.mpr hplace)]
  simp only [if_neg hsat, laidOut]
  by_cases hwithin : 2 - place ≤ (plainBytes : ℤ)
  · have hsame : saturated (-saturated (digits.length + place)) = -(digits.length + place) := by
      rw [plainBytes_cast] at hwithin
      have hplain : saturated (digits.length + place) = digits.length + place :=
        saturated_of_fits ⟨by omega, by omega⟩
      rw [hplain]
      exact saturated_of_fits ⟨by omega, by omega⟩
    rw [if_neg (not_lt.mpr (hiff.mpr hwithin)), if_pos (by omega), hsame,
      Lib.layout_of_before hplace hpoint, joinPoint,
      if_neg (List.append_ne_nil_of_right_ne_nil _ hne)]
    rfl
  · rw [if_pos (not_le.mp fun h => hwithin (hiff.mp h)), if_neg (by omega)]

end

/-- Plain notation is the digits' layout around the point, where it is within the limit. -/
theorem plain_eq (hne : digits ≠ []) (place : ℤ) : plain digits place = laidOut digits place := by
  by_cases hfits : fitsI64 digits.length
  · rcases le_or_gt 0 place with hplace | hplace
    · exact plain_of_nonneg hne hfits hplace
    · rcases lt_or_ge 0 ((digits.length : ℤ) + place) with hpoint | hpoint
      · exact plain_of_inside hne hfits hplace hpoint
      · exact plain_of_before hne hfits hplace hpoint
  · have hlength := Lib.length_joinPoint_layout hne place
    have hlong : 2 ^ 63 ≤ digits.length := by
      by_contra hlt
      exact hfits ⟨by omega, by omega⟩
    have hlonger : digits.length
        ≤ (joinPoint (layout digits place).1 (layout digits place).2).length := by
      split at hlength
      · omega
      · split at hlength <;> omega
    rw [plain, if_pos hfits, laidOut, if_neg]
    exact not_le.mpr (lt_of_lt_of_le (by norm_num [plainBytes]) (hlong.trans hlonger))

end Plain

/-! ## Reading a number's text apart -/

theorem splitAtMark_cons {before after : Bytes} (hbefore : ∀ b ∈ before, mark b = false)
    (hmark : mark byte = true) :
    splitAtMark mark (before ++ byte :: after) = (before, some after) := by
  have hkeep : ∀ b ∈ before, (!mark b) = true := fun b hb => by rw [hbefore b hb]; rfl
  have hstop : (!mark byte) = false := by rw [hmark]; rfl
  rw [splitAtMark, List.takeWhile_append_of_pos hkeep, List.dropWhile_append_of_pos hkeep,
    List.takeWhile_cons_of_neg (by rw [hstop]; decide),
    List.dropWhile_cons_of_neg (by rw [hstop]; decide), List.append_nil]
  rfl

theorem splitAtMark_none (h : ∀ b ∈ text, mark b = false) :
    splitAtMark mark text = (text, none) := by
  have hkeep : ∀ b ∈ text, (!mark b) = true := fun b hb => by rw [h b hb]; rfl
  rw [splitAtMark, List.takeWhile_eq_self_iff.mpr hkeep, List.dropWhile_eq_nil_iff.mpr hkeep]
  rfl

theorem splitAtMark_joinPoint (h : AllDigits whole) :
    splitAtMark (fun byte => byte = pointByte) (joinPoint whole fraction)
      = (whole, if fraction = [] then none else some fraction) := by
  have hwhole : ∀ b ∈ whole, decide (b = pointByte) = false := fun b hb => by
    refine decide_eq_false ?_
    rintro rfl
    exact absurd (h _ hb) (by decide)
  unfold joinPoint
  split
  · exact splitAtMark_none hwhole
  · exact splitAtMark_cons hwhole (by decide)

theorem mem_joinPoint (h : AllDigits (whole ++ fraction))
    (hbyte : byte ∈ joinPoint whole fraction) : isDigit byte = true ∨ byte = pointByte := by
  unfold joinPoint at hbyte
  split at hbyte
  · exact .inl (h byte (List.mem_append_left _ hbyte))
  · rcases List.mem_append.mp hbyte with hbyte | hbyte
    · exact .inl (h byte (List.mem_append_left _ hbyte))
    · rcases List.mem_cons.mp hbyte with rfl | hbyte
      · exact .inr rfl
      · exact .inl (h byte (List.mem_append_right _ hbyte))

namespace NumberText

variable (number : NumberText)

theorem allDigits_whole : AllDigits number.whole := fun byte hbyte =>
  number.all byte (List.mem_append_left _ hbyte)

theorem splitSign_bytes :
    splitSign number.bytes = (number.negative, joinPoint number.whole number.fraction
      ++ (number.exponent.map ExponentText.bytes).getD []) := by
  unfold bytes sign
  split
  · next hnegative => rw [hnegative]; rfl
  · rename_i hnegative
    rw [Bool.eq_false_iff.mpr hnegative, List.nil_append]
    obtain ⟨byte, rest, hwhole⟩ := List.exists_cons_of_ne_nil number.ne_nil
    have hbyte : byte ≠ minusByte := by
      rintro rfl
      exact absurd (number.allDigits_whole minusByte (hwhole ▸ List.mem_cons_self)) (by decide)
    unfold joinPoint
    rw [hwhole]
    split <;> exact if_neg hbyte

theorem splitAtMark_bytes (hpoint : mark pointByte = false)
    (hdigit : ∀ byte, isDigit byte = true → mark byte = false)
    (hmark : ∀ exponent ∈ number.exponent, mark exponent.mark = true) :
    splitAtMark mark (joinPoint number.whole number.fraction
        ++ (number.exponent.map ExponentText.bytes).getD [])
      = (joinPoint number.whole number.fraction,
          number.exponent.map fun exponent => exponent.sign.toList ++ exponent.digits) := by
  have hbefore : ∀ b ∈ joinPoint number.whole number.fraction, mark b = false := fun b hb => by
    rcases mem_joinPoint number.all hb with hb | rfl
    · exact hdigit b hb
    · exact hpoint
  cases hexponent : number.exponent with
  | none =>
    rw [Option.map_none, Option.getD_none, List.append_nil]
    exact splitAtMark_none hbefore
  | some exponent => exact splitAtMark_cons hbefore (hmark exponent hexponent)

theorem fraction_getD :
    (if number.fraction = [] then none else some number.fraction).getD [] = number.fraction := by
  split
  · next h => exact h.symm
  · rfl

end NumberText

theorem head_ne_of_allDigits {digits : Bytes} (h : AllDigits digits) {rest : Bytes}
    (heq : digits = byte :: rest) : byte ≠ minusByte ∧ byte ≠ plusByte := by
  have hdigit := h byte (heq ▸ List.mem_cons_self)
  constructor <;> (rintro rfl; exact absurd hdigit (by decide))

theorem parseI64_digits {digits : Bytes} (h : AllDigits digits) (hne : digits ≠ []) :
    parseI64 digits = checkedI64 (digitsValue digits) := by
  obtain ⟨byte, rest, rfl⟩ := List.exists_cons_of_ne_nil hne
  obtain ⟨hminus, hplus⟩ := head_ne_of_allDigits h rfl
  rw [parseI64]
  simp only [if_neg hminus, if_neg hplus]
  rw [if_pos ⟨hne, List.all_eq_true.mpr h⟩]
  rfl

theorem ExponentText.parseI64_eq (exponent : ExponentText) :
    parseI64 ((exponent.sign.toList ++ exponent.digits).dropWhile fun byte => byte = plusByte)
      = checkedI64 exponent.value := by
  obtain ⟨byte, rest, hdigits⟩ := List.exists_cons_of_ne_nil exponent.ne_nil
  have hplus := (head_ne_of_allDigits exponent.all hdigits).2
  have hdrop : (exponent.digits.dropWhile fun byte => byte = plusByte) = exponent.digits := by
    rw [hdigits]
    exact List.dropWhile_cons_of_neg (by simpa using hplus)
  unfold value
  cases hsign : exponent.sign with
  | none =>
    rw [Option.toList_none, List.nil_append, hdrop, if_neg (by simp)]
    exact parseI64_digits exponent.all exponent.ne_nil
  | some byte =>
    rw [Option.toList_some, List.singleton_append]
    rcases exponent.sign_eq byte hsign with rfl | rfl
    · rw [List.dropWhile_cons_of_neg (by decide), if_pos rfl, parseI64]
      simp only [if_true]
      rw [if_pos ⟨exponent.ne_nil, List.all_eq_true.mpr exponent.all⟩]
    · rw [List.dropWhile_cons_of_pos (by decide), hdrop, if_neg (by decide)]
      exact parseI64_digits exponent.all exponent.ne_nil

/-! ## Every writer writes the text of the value -/

namespace NumberText

variable (number : NumberText)

def digits : Bytes := number.whole ++ number.fraction

def exponentValue : ℤ := (number.exponent.map ExponentText.value).getD 0

theorem exact_val :
    number.exact.val = signed number.negative (digitsValue number.digits * 10 ^ number.power) := by
  unfold exact Exact.of signed digits
  split
  · push_cast
    ring
  · push_cast
    ring

theorem exactText_of_zero (h : significant number.digits = []) :
    exactText number.exact = [zeroByte] := by
  refine exactText_zero ?_
  have hdigits : digitsValue number.digits = 0 := (Lib.significant_eq_nil number.all).mp h
  rw [exact_val, hdigits]
  unfold signed
  split <;> simp

theorem exactText_of_ne (h : significant number.digits ≠ []) : exactText number.exact
      = number.sign ++ (plain (significant number.digits)
        (number.power + trailing number.digits)).getD
          (scientific (significant number.digits) (number.power + trailing number.digits)) := by
  have hparts : (Parts.of number.negative number.digits number.power number.all h).value
      = number.exact.val := (Parts.value_of ..).trans number.exact_val.symm
  exact exactText_parts hparts

/-- A number short enough to be held, its exponent of no more digits than the limit. -/
structure Bounded : Prop where
  exponent : ∀ exponent ∈ number.exponent,
    (exponent.digits.dropWhile isZero).length ≤ exponentDigits
  length : number.bytes.length < 2 ^ 61

theorem length_digits_le : number.digits.length ≤ number.bytes.length := by
  unfold digits bytes
  rw [List.length_append, List.length_append, List.length_append, Lib.length_joinPoint]
  split
  · rename_i h
    rw [h, List.length_nil]
    omega
  · omega

theorem trailing_le (bytes : Bytes) : trailing bytes ≤ bytes.length :=
  (List.rtakeWhile_suffix isZero bytes).length_le

theorem length_significant_le (bytes : Bytes) : (significant bytes).length ≤ bytes.length :=
  ((List.dropWhile_suffix _).length_le).trans (List.rdropWhile_prefix isZero bytes).length_le

theorem parseI64_exponent :
    parseI64 (((number.exponent.map fun exponent => exponent.sign.toList ++ exponent.digits).getD
        [zeroByte]).dropWhile fun byte => byte = plusByte) = checkedI64 number.exponentValue := by
  unfold exponentValue
  cases number.exponent with
  | none => rfl
  | some exponent => exact exponent.parseI64_eq

variable {number}

theorem exponentValue_lt (h : ∀ exponent ∈ number.exponent,
    (exponent.digits.dropWhile isZero).length ≤ exponentDigits) :
    -10 ^ 18 < number.exponentValue ∧ number.exponentValue < 10 ^ 18 := by
  unfold exponentValue
  cases hexponent : number.exponent with
  | none => norm_num
  | some exponent =>
    have hlength := h exponent hexponent
    have hzeros := Lib.eq_replicate_of_isZero
      fun byte (hbyte : byte ∈ exponent.digits.takeWhile isZero) => List.mem_takeWhile_imp hbyte
    have hvalue : digitsValue exponent.digits = digitsValue (exponent.digits.dropWhile isZero) := by
      conv_lhs => rw [← List.takeWhile_append_dropWhile (p := isZero) (l := exponent.digits)]
      rw [hzeros, Lib.digitsValue_zeros_append]
    have hlt : digitsValue exponent.digits < 10 ^ 18 := by
      rw [hvalue]
      refine (Lib.digitsValue_lt fun byte hbyte => ?_).trans_le
        (Nat.pow_le_pow_right (by decide) hlength)
      exact exponent.all byte ((List.dropWhile_suffix _).subset hbyte)
    have hcast : (digitsValue exponent.digits : ℤ) < 10 ^ 18 := by exact_mod_cast hlt
    rw [Option.map_some, Option.getD_some, ExponentText.value]
    split <;> constructor <;> omega

end NumberText

variable (number : NumberText) (exact : Exact)

theorem not_mark_of_isDigit (h : isDigit byte = true) : ¬ (byte = smallE ∨ byte = bigE) := by
  rintro (rfl | rfl) <;> exact absurd h (by decide)

theorem writeNumber_eq (h : fitsI64 number.exponentValue) : writeNumber number.bytes
      = writeDigits number.negative number.digits number.fraction.length number.exponentValue := by
  have hmark : splitAtMark (fun byte => byte = smallE ∨ byte = bigE) _ = _ :=
    number.splitAtMark_bytes (by decide)
      (fun byte hbyte => decide_eq_false (not_mark_of_isDigit hbyte))
      fun exponent _ => decide_eq_true exponent.mark_eq
  unfold writeNumber
  simp only [number.splitSign_bytes, hmark, number.parseI64_exponent,
    splitAtMark_joinPoint number.allDigits_whole, number.fraction_getD, checkedI64_of_fits h,
    NumberText.digits]

theorem eq_of_writeDigits {number : NumberText}
    (h : writeDigits number.negative number.digits number.fraction.length
      number.exponentValue = .ok text)
    : text = exactText number.exact := by
  have hsame : number.exponentValue - number.fraction.length = number.power := rfl
  rw [writeDigits] at h
  by_cases hzero : significant number.digits = []
  · rw [if_pos hzero] at h
    rw [number.exactText_of_zero hzero]
    exact (Except.ok.inj h).symm
  · rw [if_neg hzero, hsame] at h
    rw [number.exactText_of_ne hzero, NumberText.sign]
    split at h
    · cases h
    · dsimp only at h
      split at h
      · rename_i hplain
        cases h
        rw [hplain]
        rfl
      · rename_i hplain
        split at h
        · cases h
        · cases h
          rw [hplain]
          rfl

theorem writeDigits_eq
    (hplace : placeFits number.exponentValue number.fraction.length (trailing number.digits))
    (hpower : powerFits (number.power + trailing number.digits)
      (significant number.digits).length) :
    writeDigits number.negative number.digits number.fraction.length number.exponentValue
      = .ok (exactText number.exact) := by
  have hsame : number.exponentValue - number.fraction.length = number.power := rfl
  rw [writeDigits]
  by_cases hzero : significant number.digits = []
  · rw [if_pos hzero, number.exactText_of_zero hzero]
  · rw [if_neg hzero, if_neg (not_not.mpr hplace), number.exactText_of_ne hzero, NumberText.sign]
    simp only [hsame]
    cases hplain : plain (significant number.digits) (number.power + trailing number.digits) with
    | some text => rfl
    | none => exact if_neg (not_not.mpr hpower)

theorem writeNumber_bytes {number : NumberText} (h : number.Bounded) :
    writeNumber number.bytes = .ok (exactText number.exact) := by
  have hexponent := NumberText.exponentValue_lt h.exponent
  have hlength := h.length
  have hdigits := number.length_digits_le
  have hfraction : number.fraction.length ≤ number.digits.length := by
    rw [NumberText.digits, List.length_append]
    omega
  have htrailing := NumberText.trailing_le number.digits
  have hsignificant := NumberText.length_significant_le number.digits
  have hsame : number.power = number.exponentValue - number.fraction.length := rfl
  rw [writeNumber_eq number ⟨by omega, by omega⟩]
  refine writeDigits_eq number ⟨⟨?_, ?_⟩, ⟨?_, ?_⟩, ⟨?_, ?_⟩, ⟨?_, ?_⟩⟩
    ⟨⟨?_, ?_⟩, ⟨?_, ?_⟩⟩ <;> omega

theorem exponentOf_eq {exponent : ExponentText} (h : exponent.sign ≠ some plusByte) :
    exponentOf (exponent.sign.toList ++ exponent.digits) = exponent.value := by
  unfold exponentOf ExponentText.value
  cases hsign : exponent.sign with
  | none =>
    obtain ⟨byte, rest, hdigits⟩ := List.exists_cons_of_ne_nil exponent.ne_nil
    have hminus := (head_ne_of_allDigits exponent.all hdigits).1
    have hsplit : splitSign exponent.digits = (false, exponent.digits) := by
      rw [hdigits]
      exact if_neg hminus
    rw [Option.toList_none, List.nil_append, hsplit, if_neg (by simp)]
    exact one_mul _
  | some byte =>
    rcases exponent.sign_eq byte hsign with rfl | rfl
    · rw [if_pos rfl]
      exact neg_one_mul _
    · exact absurd hsign h

theorem plain_isSome {digits : Bytes} {place : ℤ} (hne : digits ≠ []) (hlength : digits.length ≤ 24)
    (hge : -348 ≤ place) (hle : place ≤ 332) : (plain digits place).isSome = true := by
  have hplain := Lib.length_joinPoint_layout hne place
  rw [plain_eq hne, laidOut, if_pos]
  · rfl
  · unfold plainBytes
    split at hplain
    · omega
    · split at hplain <;> omega

theorem writeFloat_finite (shortest : ShortestText) :
    writeFloat (.finite shortest) = exactText shortest.exact := by
  have hmark : splitAtMark (fun byte => byte = smallE) _ = _ :=
    shortest.splitAtMark_bytes (by decide)
      (fun byte hbyte => decide_eq_false fun heq => not_mark_of_isDigit hbyte (.inl heq))
      fun exponent hexponent => decide_eq_true (shortest.mark exponent hexponent).1
  have hexponent : ((shortest.exponent.map fun exponent =>
      exponent.sign.toList ++ exponent.digits).map exponentOf).getD 0 = shortest.exponentValue := by
    unfold NumberText.exponentValue
    cases hexponent : shortest.exponent with
    | none => rfl
    | some exponent => exact exponentOf_eq (shortest.mark exponent hexponent).2
  have hsame : shortest.exponentValue - shortest.fraction.length = shortest.power := rfl
  unfold writeFloat
  simp only [shortest.splitSign_bytes, hmark, hexponent,
    splitAtMark_joinPoint shortest.allDigits_whole, shortest.fraction_getD, hsame]
  by_cases hzero : significant shortest.digits = []
  · rw [shortest.exactText_of_zero hzero]
    exact if_pos hzero
  · have hdigits : shortest.digits.length ≤ 24 := shortest.digits_le
    have hfraction : shortest.fraction.length ≤ shortest.digits.length := by
      rw [NumberText.digits, List.length_append]
      omega
    have htrailing := NumberText.trailing_le shortest.digits
    have hsignificant := NumberText.length_significant_le shortest.digits
    have hge : -324 ≤ shortest.exponentValue := shortest.exponent_ge
    have hle : shortest.exponentValue ≤ 308 := shortest.exponent_le
    have hsome : (plain (significant shortest.digits)
        (shortest.power + trailing shortest.digits)).isSome = true :=
      plain_isSome hzero (by omega) (by omega) (by omega)
    obtain ⟨text, htext⟩ := Option.isSome_iff_exists.mp hsome
    rw [shortest.exactText_of_ne hzero, htext]
    unfold NumberText.digits at hzero htext
    rw [if_neg hzero, htext]
    rfl

/-! ## The text is told by the value, and tells it -/

def minusOf (value : ℚ) : Bytes := if value < 0 then [minusByte] else []

theorem minusOf_value (parts : Parts) :
    minusOf parts.value = if parts.negative then [minusByte] else [] := by
  unfold minusOf
  simp only [parts.negative_iff]

theorem exactText_of_pointed {exact : Exact} (h : Pointed whole fraction)
    (hvalue : (digitsValue (whole ++ fraction) : ℚ) = |exact.val| * 10 ^ fraction.length)
    (hlength : (joinPoint whole fraction).length ≤ plainBytes) :
    exactText exact = minusOf exact.val ++ joinPoint whole fraction := by
  by_cases hzero : exact.val = 0
  · have hpointed : Pointed [zeroByte] [] :=
      ⟨⟨0, Lib.digitsOf_zero.symm⟩, fun byte hbyte => absurd hbyte List.not_mem_nil, by simp⟩
    have hnone : digitsValue (whole ++ fraction) = 0 := by
      rw [hzero, abs_zero, zero_mul] at hvalue
      exact_mod_cast hvalue
    obtain ⟨rfl, rfl⟩ :=
      h.eq_of_value_eq hpointed (by rw [hnone]; simp [digitsValue, digitOf, zeroByte])
    rw [exactText_zero hzero, minusOf, if_neg (by simp [hzero])]
    rfl
  · obtain ⟨parts, hparts⟩ := exact.exists_parts hzero
    have hlayout : layout parts.digits parts.place = (whole, fraction) :=
      Lib.layout_eq_of_value h (by rw [hvalue, ← hparts, parts.abs_value])
    rw [exactText_parts hparts, partsText, plain_eq parts.trimmed.ne_nil, laidOut, hlayout,
      if_pos hlength,
      ← minusOf_value, hparts]
    rfl

/-- How the text of a number reads after its sign. -/
inductive Body (exact : Exact) : Bytes → Prop
  | plain {whole fraction : Bytes} (pointed : Pointed whole fraction)
      (value : (digitsValue (whole ++ fraction) : ℚ) = |exact.val| * 10 ^ fraction.length) :
      Body exact (joinPoint whole fraction)
  | scientific (parts : Parts) (value : parts.value = exact.val) :
      Body exact (scientific parts.digits parts.place)

theorem exactText_body : ∃ body, Body exact body ∧ exactText exact = minusOf exact.val ++ body := by
  by_cases hzero : exact.val = 0
  · refine ⟨joinPoint [zeroByte] [], .plain ⟨⟨0, Lib.digitsOf_zero.symm⟩,
      fun byte hbyte => absurd hbyte List.not_mem_nil, by simp⟩ ?_, ?_⟩
    · rw [hzero]
      simp [digitsValue, digitOf, zeroByte]
    · rw [exactText_zero hzero, minusOf, if_neg (by simp [hzero])]
      rfl
  · obtain ⟨parts, hparts⟩ := exact.exists_parts hzero
    rw [exactText_parts hparts, partsText, ← minusOf_value, hparts,
      plain_eq parts.trimmed.ne_nil, laidOut]
    split
    · refine ⟨_, .plain (Lib.layout_pointed parts.trimmed parts.place) ?_, rfl⟩
      rw [Lib.layout_value, ← hparts, parts.abs_value, Parts.magnitude]
    · exact ⟨_, .scientific parts hparts, rfl⟩

theorem joinPoint_take_drop {digits : Bytes} (h : Trimmed digits) :
    Pointed (digits.take 1) (digits.drop 1) := by
  obtain ⟨byte, rest, rfl⟩ := List.exists_cons_of_ne_nil h.ne_nil
  refine ⟨Lib.exists_digitsOf ?_ (by simp) ?_, ?_, ?_⟩
  · exact fun b hb => h.all b (List.mem_of_mem_take hb)
  · exact h.head
  · exact fun b hb => h.all b (List.mem_of_mem_drop hb)
  · cases rest with
    | nil => simp
    | cons next rest =>
      have hlast := h.last
      rw [List.getLast?_cons_cons] at hlast
      exact hlast

theorem smallE_notMem_joinPoint (h : Pointed whole fraction) :
    smallE ∉ joinPoint whole fraction := by
  obtain ⟨n, rfl⟩ := h.isWhole
  intro hmem
  have hall : AllDigits (digitsOf n ++ fraction) := by
    intro byte hbyte
    rcases List.mem_append.mp hbyte with hbyte | hbyte
    · exact Lib.allDigits_digitsOf n byte hbyte
    · exact h.digits byte hbyte
  rcases mem_joinPoint hall hmem with hdigit | heq
  · exact absurd hdigit (by decide)
  · exact absurd heq (by decide)

theorem integerText_injective : Function.Injective integerText := by
  have hhead : ∀ n rest, digitsOf n ≠ minusByte :: rest := fun n rest heq =>
    absurd (Lib.allDigits_digitsOf n minusByte (heq ▸ List.mem_cons_self)) (by decide)
  have hdigits : ∀ {m n}, digitsOf m = digitsOf n → m = n := fun {m n} heq => by
    rw [← Lib.digitsValue_digitsOf m, heq, Lib.digitsValue_digitsOf]
  intro left right heq
  unfold integerText at heq
  split at heq <;> split at heq
  · have := hdigits (List.cons.inj heq).2
    omega
  · exact absurd heq.symm (hhead _ _)
  · exact absurd heq (hhead _ _)
  · have := hdigits heq
    omega

theorem Body.abs_eq {left right : Exact} {body : Bytes} (h : Body left body)
    (h' : Body right body) :
    |left.val| = |right.val| := by
  generalize hsame : body = other at h'
  cases h with
  | plain pointed value =>
    cases h' with
    | plain pointed' value' =>
      obtain ⟨rfl, rfl⟩ := pointed.joinPoint_inj pointed' hsame
      exact mul_right_cancel₀ (pow_pos (by norm_num) _).ne' (value.symm.trans value')
    | scientific parts value' =>
      refine absurd ?_ (smallE_notMem_joinPoint pointed)
      rw [hsame]
      exact List.mem_append_right _ List.mem_cons_self
  | scientific parts value =>
    cases h' with
    | plain pointed' value' =>
      refine absurd ?_ (smallE_notMem_joinPoint pointed')
      rw [← hsame]
      exact List.mem_append_right _ List.mem_cons_self
    | scientific parts' value' =>
      have hpointed := joinPoint_take_drop parts.trimmed
      have hpointed' := joinPoint_take_drop parts'.trimmed
      obtain ⟨hdigits, hpower⟩ := Lib.eq_of_append_cons (smallE_notMem_joinPoint hpointed)
        (smallE_notMem_joinPoint hpointed') hsame
      obtain ⟨htake, hdrop⟩ := hpointed.joinPoint_inj hpointed' hdigits
      have hall : parts.digits = parts'.digits := by
        rw [← List.take_append_drop 1 parts.digits, htake, hdrop, List.take_append_drop]
      have hplace := integerText_injective hpower
      rw [hall] at hplace
      rw [← value, ← value', parts.abs_value, parts'.abs_value, Parts.magnitude, Parts.magnitude,
        hall, add_right_cancel hplace]

theorem head_joinPoint (h : Pointed whole fraction) (rest : Bytes) :
    ∃ byte tail, isDigit byte = true ∧ joinPoint whole fraction ++ rest = byte :: tail := by
  obtain ⟨n, rfl⟩ := h.isWhole
  obtain ⟨byte, tail, hdigits⟩ := List.exists_cons_of_ne_nil (Lib.digitsOf_ne_nil n)
  have hbyte := Lib.allDigits_digitsOf n byte (hdigits ▸ List.mem_cons_self)
  unfold joinPoint
  rw [hdigits]
  split
  · exact ⟨byte, _, hbyte, rfl⟩
  · exact ⟨byte, _, hbyte, rfl⟩

theorem Body.head {exact : Exact} {body : Bytes} (h : Body exact body) :
    ∃ byte tail, isDigit byte = true ∧ body = byte :: tail := by
  cases h with
  | plain pointed value =>
    obtain ⟨byte, tail, hbyte, heq⟩ := head_joinPoint pointed []
    exact ⟨byte, tail, hbyte, (List.append_nil _).symm.trans heq⟩
  | scientific parts value => exact head_joinPoint (joinPoint_take_drop parts.trimmed) _

theorem exactText_injective : Function.Injective exactText := by
  intro left right heq
  obtain ⟨body, hbody, hleft⟩ := exactText_body left
  obtain ⟨body', hbody', hright⟩ := exactText_body right
  obtain ⟨byte, tail, hbyte, htail⟩ := hbody.head
  obtain ⟨byte', tail', hbyte', htail'⟩ := hbody'.head
  have hnot : ∀ {b : Byte}, isDigit b = true → b ≠ minusByte := fun h heq =>
    absurd (heq ▸ h) (by decide)
  rw [hleft, hright] at heq
  unfold minusOf at heq
  refine Subtype.ext ?_
  split at heq <;> split at heq
  · rename_i hneg hneg'
    have hsame : body = body' := (List.cons.inj heq).2
    have habs := hbody.abs_eq (hsame ▸ hbody')
    rw [abs_of_neg hneg, abs_of_neg hneg'] at habs
    exact neg_injective habs
  · rw [htail'] at heq
    exact absurd (List.cons.inj heq).1.symm (hnot hbyte')
  · rw [htail] at heq
    exact absurd (List.cons.inj heq).1 (hnot hbyte)
  · rename_i hneg hneg'
    have hsame : body = body' := heq
    have habs := hbody.abs_eq (hsame ▸ hbody')
    rwa [abs_of_nonneg (not_lt.mp hneg), abs_of_nonneg (not_lt.mp hneg')] at habs

theorem exactText_ne_name {name : Byte} {rest : Bytes} (h : isDigit name = false)
    (hminus : name ≠ minusByte) :
    exactText exact ≠ name :: rest ∧ exactText exact ≠ minusByte :: name :: rest := by
  obtain ⟨body, hbody, heq⟩ := exactText_body exact
  obtain ⟨byte, tail, hbyte, rfl⟩ := hbody.head
  have hname : byte ≠ name := by
    rintro rfl
    rw [hbyte] at h
    cases h
  have hdigit : byte ≠ minusByte := by
    rintro rfl
    exact absurd hbyte (by decide)
  rw [heq, minusOf]
  split
  · exact ⟨fun hsame => hminus (List.cons.inj hsame).1.symm,
      fun hsame => hname (List.cons.inj (List.cons.inj hsame).2).1⟩
  · exact ⟨fun hsame => hname (List.cons.inj hsame).1, fun hsame => hdigit (List.cons.inj hsame).1⟩

end Rdlt.Json
