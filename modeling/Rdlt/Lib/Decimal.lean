/-
  Rdlt.Lib.Decimal

  Decimal numbers: those that are whole once the point moves far enough. One
  other than zero is, in one way only, a sign, digits with no zero at either end
  and a place.
-/

import Rdlt.Lib.Digits

namespace Rdlt.Lib

variable {digits fraction whole : List (Fin 256)} {place : ℤ}

def isZero (byte : Fin 256) : Bool := byte = zeroByte

/-- `digits` without the zeros at either end. -/
def significant (digits : List (Fin 256)) : List (Fin 256) :=
  (digits.rdropWhile isZero).dropWhile isZero

def trailing (digits : List (Fin 256)) : Nat := (digits.rtakeWhile isZero).length

/-! ## Digits without the zeros around them -/

/-- Digits, some of them, with no zero at either end. -/
structure Trimmed (digits : List (Fin 256)) : Prop where
  all : AllDigits digits
  ne_nil : digits ≠ []
  head : digits.head? ≠ some zeroByte
  last : digits.getLast? ≠ some zeroByte

theorem eq_replicate_of_isZero (h : ∀ byte ∈ digits, isZero byte = true) :
    digits = List.replicate digits.length zeroByte :=
  List.eq_replicate_length.mpr fun byte hbyte => by simpa [isZero] using h byte hbyte

theorem isZero_eq_true {byte : Fin 256} : isZero byte = true ↔ byte = zeroByte := by
  simp [isZero]

theorem digitsValue_zeros_append (n : Nat) (digits : List (Fin 256)) :
    digitsValue (List.replicate n zeroByte ++ digits) = digitsValue digits := by
  rw [digitsValue_append, digitsValue_replicate_zero, Nat.zero_mul, Nat.zero_add]

theorem digitsValue_trim (whole fraction : List (Fin 256)) :
    digitsValue (whole ++ fraction.rdropWhile isZero) * 10 ^ trailing fraction
      = digitsValue (whole ++ fraction) := by
  have hzeros := eq_replicate_of_isZero fun byte (hbyte : byte ∈ fraction.rtakeWhile isZero) =>
    List.mem_rtakeWhile_imp hbyte
  conv_rhs => rw [← List.rdropWhile_append_rtakeWhile (p := isZero) (l := fraction),
    ← List.append_assoc, digitsValue_append, hzeros, digitsValue_replicate_zero,
    List.length_replicate, Nat.add_zero]
  rfl

theorem digitsValue_significant (digits : List (Fin 256)) :
    digitsValue (significant digits) * 10 ^ trailing digits = digitsValue digits := by
  have hbefore := eq_replicate_of_isZero
    fun byte (hbyte : byte ∈ (digits.rdropWhile isZero).takeWhile isZero) =>
      List.mem_takeWhile_imp hbyte
  have htrim := digitsValue_trim [] digits
  rwa [List.nil_append, List.nil_append, ← List.takeWhile_append_dropWhile (p := isZero)
    (l := digits.rdropWhile isZero), hbefore, digitsValue_zeros_append] at htrim

theorem allDigits_significant (h : AllDigits digits) :
    AllDigits (significant digits) := fun byte hbyte =>
  h byte ((List.rdropWhile_prefix _ _).subset ((List.dropWhile_suffix _).subset hbyte))

theorem trimmed_significant (h : AllDigits digits)
    (hne : significant digits ≠ []) : Trimmed (significant digits) where
  all := allDigits_significant h
  ne_nil := hne
  head := by
    intro hhead
    have hnot := List.head?_dropWhile_not isZero (digits.rdropWhile isZero)
    rw [significant] at hhead
    rw [hhead] at hnot
    exact absurd hnot (by decide)
  last := by
    intro hlast
    obtain ⟨before, hbefore⟩ : significant digits <:+ digits.rdropWhile isZero :=
      List.dropWhile_suffix _
    have hkept : digits.rdropWhile isZero ≠ [] := by
      rw [← hbefore]
      exact List.append_ne_nil_of_right_ne_nil _ hne
    refine List.rdropWhile_last_not isZero digits hkept (isZero_eq_true.mpr ?_)
    rw [← Option.some_inj, ← List.getLast?_eq_getLast_of_ne_nil, ← hbefore,
      List.getLast?_append_of_ne_nil _ hne, hlast]

theorem Trimmed.digitsValue_pos (h : Trimmed digits) : 0 < digitsValue digits :=
  Lib.digitsValue_pos h.all h.ne_nil h.head

theorem Trimmed.eq_of_digitsValue {digits' : List (Fin 256)} (h : Trimmed digits)
    (h' : Trimmed digits') (hvalue : digitsValue digits = digitsValue digits') :
    digits = digits' := by
  rw [← digitsOf_digitsValue h.all h.ne_nil h.head, hvalue,
    digitsOf_digitsValue h'.all h'.ne_nil h'.head]

/-! ## A sign, digits and a place -/

/-- A decimal number other than zero: a sign, digits with no zero at either end, and the power of
    ten they count. -/
structure Parts where
  negative : Bool
  digits : List (Fin 256)
  place : ℤ
  trimmed : Trimmed digits

def signed (negative : Bool) (value : ℚ) : ℚ := if negative then -value else value

namespace Parts

variable (parts : Parts)

def magnitude (parts : Parts) : ℚ := digitsValue parts.digits * 10 ^ parts.place

def value (parts : Parts) : ℚ := signed parts.negative parts.magnitude

theorem magnitude_pos : 0 < parts.magnitude :=
  mul_pos (Nat.cast_pos.mpr parts.trimmed.digitsValue_pos) (zpow_pos (by norm_num) _)

theorem value_ne_zero : parts.value ≠ 0 := by
  have hpos := parts.magnitude_pos
  unfold value signed
  split
  · exact neg_ne_zero.mpr hpos.ne'
  · exact hpos.ne'

theorem negative_iff : parts.negative = true ↔ parts.value < 0 := by
  have hpos := parts.magnitude_pos
  unfold value signed
  split
  · next h => exact iff_of_true h (neg_lt_zero.mpr hpos)
  · next h => exact iff_of_false h (not_lt.mpr hpos.le)

theorem abs_value : |parts.value| = parts.magnitude := by
  have hpos := parts.magnitude_pos
  unfold value signed
  split
  · rw [abs_neg, abs_of_pos hpos]
  · exact abs_of_pos hpos

theorem place_le {left right : Parts} (h : left.magnitude = right.magnitude) :
    right.place ≤ left.place := by
  by_contra hlt
  obtain ⟨more, hmore⟩ := Int.eq_ofNat_of_zero_le (Int.sub_nonneg_of_le (not_le.mp hlt).le)
  have hplace : right.place = left.place + more := by omega
  have hscaled : (digitsValue left.digits : ℚ) = (digitsValue right.digits * 10 ^ more : ℕ) := by
    unfold magnitude at h
    rw [hplace, zpow_add₀ (by norm_num), zpow_natCast, mul_left_comm] at h
    have hpos : (10 : ℚ) ^ left.place ≠ 0 := (zpow_pos (by norm_num) _).ne'
    push_cast
    refine mul_right_cancel₀ hpos ?_
    rw [h]
    ring
  have hvalue := Nat.cast_injective hscaled
  obtain ⟨less, rfl⟩ : ∃ less, more = less + 1 := ⟨more - 1, by omega⟩
  obtain ⟨hall, hne, -, hlast⟩ := left.trimmed
  refine digitsValue_mod_ten_ne_zero hall hne hlast ?_
  rw [hvalue, pow_succ, ← mul_assoc]
  exact Nat.mul_mod_left _ _

theorem value_injective : Function.Injective value := by
  intro left right h
  have hmagnitude : left.magnitude = right.magnitude := by
    rw [← left.abs_value, ← right.abs_value, h]
  have hnegative : left.negative = right.negative := by
    rw [Bool.eq_iff_iff, left.negative_iff, right.negative_iff, h]
  have hplace : left.place = right.place :=
    le_antisymm (place_le hmagnitude.symm) (place_le hmagnitude)
  have hdigits : left.digits = right.digits := by
    refine left.trimmed.eq_of_digitsValue right.trimmed ?_
    unfold magnitude at hmagnitude
    rw [hplace] at hmagnitude
    exact Nat.cast_injective (mul_right_cancel₀ (zpow_pos (by norm_num) _).ne' hmagnitude)
  cases left
  cases right
  subst hnegative hplace hdigits
  rfl

def of (negative : Bool) (digits : List (Fin 256)) (place : ℤ) (h : AllDigits digits)
    (hne : significant digits ≠ []) : Parts where
  negative := negative
  digits := significant digits
  place := place + trailing digits
  trimmed := trimmed_significant h hne

theorem value_of (negative : Bool) (digits : List (Fin 256)) (place : ℤ) (h : AllDigits digits)
    (hne : significant digits ≠ []) :
    (of negative digits place h hne).value = signed negative (digitsValue digits * 10 ^ place) := by
  have hvalue : (digitsValue digits : ℚ)
      = digitsValue (significant digits) * 10 ^ trailing digits := by
    rw [← digitsValue_significant digits]
    push_cast
    ring
  rw [value, magnitude, of, hvalue, zpow_add₀ (by norm_num), zpow_natCast]
  congr 1
  ring

end Parts

theorem significant_eq_nil (h : AllDigits digits) :
    significant digits = [] ↔ digitsValue digits = 0 := by
  constructor
  · intro hnil
    rw [← digitsValue_significant, hnil, digitsValue_nil, Nat.zero_mul]
  · intro hvalue
    by_contra hne
    have hpos := (trimmed_significant h hne).digitsValue_pos
    rw [← digitsValue_significant] at hvalue
    rcases Nat.mul_eq_zero.mp hvalue with hzero | hzero
    · exact absurd hzero hpos.ne'
    · exact absurd hzero (pow_pos (by decide) _).ne'

/-! ## Around the point -/

/-- The whole part and the fraction of `digits` at `place`. -/
def layout (digits : List (Fin 256)) (place : ℤ) : List (Fin 256) × List (Fin 256) :=
  if 0 ≤ place then (digits ++ List.replicate place.toNat zeroByte, [])
  else
    let point : ℤ := digits.length + place
    if 0 < point then (digits.take point.toNat, digits.drop point.toNat)
    else ([zeroByte], List.replicate (-point).toNat zeroByte ++ digits)

theorem layout_of_nonneg (h : 0 ≤ place) (digits : List (Fin 256)) :
    layout digits place = (digits ++ List.replicate place.toNat zeroByte, []) :=
  if_pos h

theorem layout_of_inside (h : place < 0) (hpoint : 0 < digits.length + place) : layout digits place
      = (digits.take (digits.length + place).toNat, digits.drop (digits.length + place).toNat) := by
  rw [layout, if_neg (not_le.mpr h)]
  exact if_pos hpoint

theorem layout_of_before (h : place < 0) (hpoint : digits.length + place ≤ 0) : layout digits place
      = ([zeroByte], List.replicate (-(digits.length + place)).toNat zeroByte ++ digits) := by
  rw [layout, if_neg (not_le.mpr h)]
  exact if_neg (not_lt.mpr hpoint)

/-- A whole part and a fraction count what the digits at their place do. -/
theorem layout_value (digits : List (Fin 256)) (place : ℤ) :
    (digitsValue ((layout digits place).1 ++ (layout digits place).2) : ℚ)
      = digitsValue digits * 10 ^ place * 10 ^ (layout digits place).2.length := by
  have hten : (10 : ℚ) ≠ 0 := by norm_num
  unfold layout
  split
  · rename_i hplace
    rw [List.append_nil, digitsValue_append, digitsValue_replicate_zero, List.length_replicate,
      Nat.add_zero, List.length_nil, pow_zero, mul_one]
    push_cast
    rw [← zpow_natCast, Int.toNat_of_nonneg hplace]
  · next hplace =>
      dsimp only
      split
      · rename_i hpoint
        rw [List.take_append_drop, mul_assoc, ← zpow_natCast (10 : ℚ), ← zpow_add₀ hten,
          List.length_drop]
        rw [show place + ((digits.length - ((digits.length : ℤ) + place).toNat : ℕ) : ℤ) = 0 by
          omega, zpow_zero, mul_one]
      · rename_i hpoint
        rw [show [zeroByte] = List.replicate 1 zeroByte from rfl, digitsValue_zeros_append,
          digitsValue_zeros_append, mul_assoc, ← zpow_natCast (10 : ℚ), ← zpow_add₀ hten,
          List.length_append, List.length_replicate]
        rw [show place + (((-((digits.length : ℤ) + place)).toNat + digits.length : ℕ) : ℤ) = 0 by
          omega, zpow_zero, mul_one]

theorem digitsOf_zero : digitsOf 0 = [zeroByte] := by
  rw [digitsOf_of_lt (by decide)]
  rfl

theorem exists_digitsOf (h : AllDigits digits) (hne : digits ≠ [])
    (hhead : digits.head? ≠ some zeroByte) : ∃ n, digits = digitsOf n :=
  ⟨_, (digitsOf_digitsValue h hne hhead).symm⟩

theorem layout_pointed (h : Trimmed digits) (place : ℤ) :
    Pointed (layout digits place).1 (layout digits place).2 := by
  have hzeros : ∀ n, AllDigits (List.replicate n zeroByte) := by
    intro n byte hbyte
    rw [List.eq_of_mem_replicate hbyte]
    rfl
  unfold layout
  split
  · refine ⟨?_, fun byte hbyte => absurd hbyte List.not_mem_nil, by simp⟩
    refine exists_digitsOf ?_ (List.append_ne_nil_of_left_ne_nil h.ne_nil _) ?_
    · intro byte hbyte
      rcases List.mem_append.mp hbyte with hbyte | hbyte
      · exact h.all byte hbyte
      · exact hzeros _ byte hbyte
    · rw [List.head?_append_of_ne_nil _ h.ne_nil]
      exact h.head
  · dsimp only
    split
    · rename_i hplace hpoint
      have htake : 0 < ((digits.length : ℤ) + place).toNat := by omega
      have hdrop : ((digits.length : ℤ) + place).toNat < digits.length := by omega
      refine ⟨exists_digitsOf (fun byte hbyte => h.all byte (List.mem_of_mem_take hbyte)) ?_ ?_,
        fun byte hbyte => h.all byte (List.mem_of_mem_drop hbyte), ?_⟩
      · exact List.ne_nil_of_length_pos (by rw [List.length_take]; omega)
      · rw [List.head?_take, if_neg htake.ne']
        exact h.head
      · rw [List.getLast?_drop, if_neg (by omega)]
        exact h.last
    · refine ⟨⟨0, digitsOf_zero.symm⟩, ?_, ?_⟩
      · intro byte hbyte
        rcases List.mem_append.mp hbyte with hbyte | hbyte
        · exact hzeros _ byte hbyte
        · exact h.all byte hbyte
      · rw [List.getLast?_append_of_ne_nil _ h.ne_nil]
        exact h.last

theorem layout_eq_of_value {parts : Parts} (h : Pointed whole fraction)
    (hvalue : (digitsValue (whole ++ fraction) : ℚ) = parts.magnitude * 10 ^ fraction.length) :
    layout parts.digits parts.place = (whole, fraction) := by
  have hlayout := layout_value parts.digits parts.place
  have heq := (layout_pointed parts.trimmed parts.place).eq_of_value_eq h (by
    refine Nat.cast_injective (R := ℚ) ?_
    push_cast
    rw [hlayout, hvalue, Parts.magnitude]
    ring)
  exact Prod.ext heq.1 heq.2

theorem pointed_trim (hwhole : ∃ n, whole = digitsOf n) (h : AllDigits fraction) :
    Pointed whole (fraction.rdropWhile isZero) := by
  refine ⟨hwhole, fun byte hbyte => h byte ((List.rdropWhile_prefix _ _).subset hbyte), ?_⟩
  intro hlast
  have hne : fraction.rdropWhile isZero ≠ [] := by
    intro hnil
    rw [hnil] at hlast
    cases hlast
  refine List.rdropWhile_last_not isZero _ hne (isZero_eq_true.mpr ?_)
  rw [← Option.some_inj, ← List.getLast?_eq_getLast_of_ne_nil, hlast]

theorem length_trim (fraction : List (Fin 256)) :
    (fraction.rdropWhile isZero).length + trailing fraction = fraction.length := by
  rw [trailing, ← List.length_append, List.rdropWhile_append_rtakeWhile]

theorem length_joinPoint (whole fraction : List (Fin 256)) : (joinPoint whole fraction).length
      = whole.length + if fraction = [] then 0 else fraction.length + 1 := by
  unfold joinPoint
  split <;> simp_all

theorem length_joinPoint_layout (hne : digits ≠ []) (place : ℤ) :
    ((joinPoint (layout digits place).1 (layout digits place).2).length : ℤ)
      = if 0 ≤ place then digits.length + place
        else if 0 < digits.length + place then digits.length + 1 else 2 - place := by
  have hpos : 0 < digits.length := List.length_pos_of_ne_nil hne
  rw [length_joinPoint]
  by_cases hplace : 0 ≤ place
  · rw [if_pos hplace, layout_of_nonneg hplace]
    simp only [List.length_append, List.length_replicate, if_true, Nat.cast_add, Nat.cast_zero]
    omega
  · rw [if_neg hplace]
    by_cases hpoint : 0 < (digits.length : ℤ) + place
    · have hdrop : digits.drop ((digits.length : ℤ) + place).toNat ≠ [] :=
        List.ne_nil_of_length_pos (by rw [List.length_drop]; omega)
      rw [if_pos hpoint, layout_of_inside (not_le.mp hplace) hpoint, if_neg hdrop]
      simp only [List.length_take, List.length_drop]
      omega
    · rw [if_neg hpoint, layout_of_before (not_le.mp hplace) (not_lt.mp hpoint),
        if_neg (List.append_ne_nil_of_right_ne_nil _ hne)]
      simp only [List.length_append, List.length_replicate, List.length_singleton]
      omega

/-! ## Exact values -/

/-- A decimal number: a whole one once the point moves far enough. -/
def Exact : Type := {value : ℚ // ∃ mantissa place : ℤ, value = mantissa * 10 ^ place}

namespace Exact

instance : DecidableEq Exact := inferInstanceAs (DecidableEq (Subtype _))

def of (mantissa place : ℤ) : Exact := ⟨mantissa * 10 ^ place, mantissa, place, rfl⟩

/-- A decimal number other than zero has parts. -/
theorem exists_parts (exact : Exact) (hne : exact.val ≠ 0) :
    ∃ parts : Parts, parts.value = exact.val := by
  obtain ⟨value, mantissa, place, rfl⟩ := exact
  have hdigits := allDigits_digitsOf mantissa.natAbs
  have hmantissa : mantissa ≠ 0 := by
    rintro rfl
    simp at hne
  have hsome : significant (digitsOf mantissa.natAbs) ≠ [] := by
    rw [Ne, significant_eq_nil hdigits, digitsValue_digitsOf]
    exact Int.natAbs_ne_zero.mpr hmantissa
  refine ⟨Parts.of (decide (mantissa < 0)) _ place hdigits hsome, ?_⟩
  rw [Parts.value_of, digitsValue_digitsOf, signed]
  split
  · rename_i h
    have habs : ((mantissa.natAbs : ℕ) : ℚ) = -mantissa := by
      rw [Nat.cast_natAbs, abs_of_neg (of_decide_eq_true h), Int.cast_neg]
    rw [habs]
    ring
  · rename_i h
    have habs : ((mantissa.natAbs : ℕ) : ℚ) = mantissa := by
      rw [Nat.cast_natAbs, abs_of_nonneg (not_lt.mp fun hlt => h (decide_eq_true hlt))]
    rw [habs]

end Exact

end Rdlt.Lib
