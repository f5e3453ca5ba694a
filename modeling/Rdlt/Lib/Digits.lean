/-
  Rdlt.Lib.Digits

  Decimal digits as the bytes that write them: what a run of them counts, the
  digits of a number, and that a run with no zero in front is those of what it
  counts.
-/

import Rdlt.Lib.Delimited

namespace Rdlt.Lib

variable {byte : Fin 256} {bytes : List (Fin 256)} {n : Nat}

section

variable (bytes : List (Fin 256))

def digitByte (digit : Nat) : Fin 256 := Fin.ofNat 256 (48 + digit)

def zeroByte : Fin 256 := 48

def isDigit (byte : Fin 256) : Bool := decide (48 ≤ byte.val ∧ byte.val ≤ 57)

def digitOf (byte : Fin 256) : Nat := byte.val - 48

def AllDigits : Prop := ∀ byte ∈ bytes, isDigit byte = true

def digitsValue : Nat :=
  bytes.foldl (fun value byte => value * 10 + digitOf byte) 0

def digitsOf (n : Nat) : List (Fin 256) :=
  if n < 10 then [digitByte n] else digitsOf (n / 10) ++ [digitByte (n % 10)]

/-! ## Bytes -/

theorem isDigit_digitByte {digit : Nat} (h : digit < 10) : isDigit (digitByte digit) = true := by
  refine decide_eq_true ?_
  simp only [digitByte, Fin.val_ofNat]
  omega

theorem digitOf_digitByte {digit : Nat} (h : digit < 10) : digitOf (digitByte digit) = digit := by
  simp only [digitOf, digitByte, Fin.val_ofNat]
  omega

theorem digitByte_digitOf (h : isDigit byte = true) : digitByte (digitOf byte) = byte := by
  simp only [isDigit, decide_eq_true_eq] at h
  apply Fin.ext
  simp only [digitByte, digitOf, Fin.val_ofNat]
  omega

theorem digitOf_lt (h : isDigit byte = true) : digitOf byte < 10 := by
  simp only [isDigit, decide_eq_true_eq] at h
  simp only [digitOf]
  omega

theorem digitOf_eq_zero (h : isDigit byte = true) : digitOf byte = 0 ↔ byte = zeroByte := by
  simp only [isDigit, decide_eq_true_eq] at h
  rw [Fin.ext_iff]
  change byte.val - 48 = 0 ↔ byte.val = 48
  omega

/-! ## Values -/

@[simp] theorem digitsValue_nil : digitsValue [] = 0 := rfl

theorem foldl_digits (start : Nat) : bytes.foldl (fun value byte => value * 10 + digitOf byte) start
      = start * 10 ^ bytes.length + digitsValue bytes := by
  unfold digitsValue
  induction bytes generalizing start with
  | nil => simp
  | cons byte bytes ih =>
    rw [List.foldl_cons, List.foldl_cons, ih, ih (0 * 10 + digitOf byte),
      List.length_cons, pow_succ]
    ring

theorem digitsValue_append (left right : List (Fin 256)) :
    digitsValue (left ++ right) = digitsValue left * 10 ^ right.length + digitsValue right := by
  rw [digitsValue, List.foldl_append, foldl_digits]
  rfl

theorem digitsValue_singleton (byte : Fin 256) : digitsValue [byte] = digitOf byte := by
  simp [digitsValue]

theorem digitsValue_concat (byte : Fin 256) :
    digitsValue (bytes ++ [byte]) = digitsValue bytes * 10 + digitOf byte := by
  rw [digitsValue_append, digitsValue_singleton, List.length_singleton, pow_one]

end

theorem digitsValue_replicate_zero (n : Nat) : digitsValue (List.replicate n zeroByte) = 0 := by
  induction n with
  | zero => rfl
  | succ n ih =>
    rw [List.replicate_succ', digitsValue_concat, ih]
    rfl

theorem digitsValue_lt (h : AllDigits bytes) : digitsValue bytes < 10 ^ bytes.length := by
  induction bytes using List.reverseRecOn with
  | nil => simp
  | append_singleton bytes byte ih =>
    have hbytes := ih fun b hb => h b (List.mem_append_left _ hb)
    have hbyte := digitOf_lt (h byte (by simp))
    rw [digitsValue_concat, List.length_append, List.length_singleton, pow_succ]
    omega

theorem eq_of_digitsValue_eq {left right : List (Fin 256)} (hleft : AllDigits left)
    (hright : AllDigits right) (hlength : left.length = right.length)
    (hvalue : digitsValue left = digitsValue right) : left = right := by
  induction left using List.reverseRecOn generalizing right with
  | nil => exact (List.length_eq_zero_iff.mp hlength.symm).symm
  | append_singleton left byte ih =>
    rcases List.eq_nil_or_concat right with rfl | ⟨right, byte', rfl⟩
    · simp at hlength
    · rw [List.concat_eq_append] at hright hlength hvalue ⊢
      rw [digitsValue_concat, digitsValue_concat] at hvalue
      have hbyte := digitOf_lt (hleft byte (by simp))
      have hbyte' := digitOf_lt (hright byte' (by simp))
      have hinit : left = right := ih (fun b hb => hleft b (List.mem_append_left _ hb))
          (fun b hb => hright b (List.mem_append_left _ hb))
          (by simpa using hlength) (by omega)
      have hlast : digitOf byte = digitOf byte' := by omega
      rw [hinit, ← digitByte_digitOf (hleft byte (by simp)), hlast,
        digitByte_digitOf (hright byte' (by simp))]

/-! ## The digits of a number -/

theorem digitsOf_of_lt (h : n < 10) : digitsOf n = [digitByte n] := by
  rw [digitsOf, if_pos h]

theorem digitsOf_of_ge (h : 10 ≤ n) : digitsOf n = digitsOf (n / 10) ++ [digitByte (n % 10)] := by
  rw [digitsOf, if_neg (Nat.not_lt.mpr h)]

theorem digitsOf_ne_nil (n : Nat) : digitsOf n ≠ [] := by
  rw [digitsOf]
  split <;> simp

theorem allDigits_digitsOf (n : Nat) : AllDigits (digitsOf n) := by
  induction n using Nat.strong_induction_on with
  | _ n ih =>
    intro byte hbyte
    rcases Nat.lt_or_ge n 10 with hlt | hge
    · rw [digitsOf_of_lt hlt, List.mem_singleton] at hbyte
      exact hbyte ▸ isDigit_digitByte hlt
    · rw [digitsOf_of_ge hge] at hbyte
      rcases List.mem_append.mp hbyte with hbyte | hbyte
      · exact ih (n / 10) (by omega) byte hbyte
      · exact List.mem_singleton.mp hbyte ▸ isDigit_digitByte (Nat.mod_lt _ (by decide))

@[simp] theorem digitsValue_digitsOf (n : Nat) : digitsValue (digitsOf n) = n := by
  induction n using Nat.strong_induction_on with
  | _ n ih =>
    rcases Nat.lt_or_ge n 10 with hlt | hge
    · rw [digitsOf_of_lt hlt, digitsValue_singleton, digitOf_digitByte hlt]
    · rw [digitsOf_of_ge hge, digitsValue_concat, ih (n / 10) (by omega),
        digitOf_digitByte (Nat.mod_lt _ (by decide))]
      omega

theorem head?_digitsOf (h : 0 < n) : (digitsOf n).head? ≠ some zeroByte := by
  induction n using Nat.strong_induction_on with
  | _ n ih =>
    rcases Nat.lt_or_ge n 10 with hlt | hge
    · rw [digitsOf_of_lt hlt]
      intro heq
      have hzero := Option.some.inj heq
      rw [← digitOf_eq_zero (isDigit_digitByte hlt), digitOf_digitByte hlt] at hzero
      omega
    · rw [digitsOf_of_ge hge, List.head?_append_of_ne_nil _ (digitsOf_ne_nil _)]
      exact ih (n / 10) (by omega) (by omega)

theorem length_digitsOf_le {k : Nat} (hk : 0 < k) (h : n < 10 ^ k) : (digitsOf n).length ≤ k := by
  induction k generalizing n with
  | zero => cases hk
  | succ k ih =>
    rcases Nat.lt_or_ge n 10 with hlt | hge
    · rw [digitsOf_of_lt hlt, List.length_singleton]
      omega
    · rw [digitsOf_of_ge hge, List.length_append, List.length_singleton]
      have hk' : 0 < k := by
        rcases Nat.eq_zero_or_pos k with rfl | hpos
        · simp at h
          omega
        · exact hpos
      have hdiv : n / 10 < 10 ^ k := by
        rw [pow_succ] at h
        exact Nat.div_lt_of_lt_mul (by rwa [mul_comm])
      have hrest := ih hk' hdiv
      omega

theorem digitsValue_pos (h : AllDigits bytes) (hne : bytes ≠ [])
    (hhead : bytes.head? ≠ some zeroByte) : 0 < digitsValue bytes := by
  obtain ⟨byte, rest, rfl⟩ := List.exists_cons_of_ne_nil hne
  have hbyte : digitOf byte ≠ 0 := fun hzero =>
    hhead (congrArg some ((digitOf_eq_zero (h byte List.mem_cons_self)).mp hzero))
  rw [← List.singleton_append, digitsValue_append, digitsValue_singleton]
  have hpos : 0 < digitOf byte * 10 ^ rest.length :=
    Nat.mul_pos (Nat.pos_of_ne_zero hbyte) (pow_pos (by decide) _)
  omega

/-- Digits with no zero in front are those of what they count. -/
theorem digitsOf_digitsValue (h : AllDigits bytes) (hne : bytes ≠ [])
    (hhead : bytes.head? ≠ some zeroByte) : digitsOf (digitsValue bytes) = bytes := by
  induction bytes using List.reverseRecOn with
  | nil => exact absurd rfl hne
  | append_singleton bytes byte ih =>
    have hbyte := h byte (by simp)
    have hlt := digitOf_lt hbyte
    rw [digitsValue_concat]
    by_cases hnil : bytes = []
    · subst hnil
      rw [digitsValue_nil, Nat.zero_mul, Nat.zero_add, digitsOf_of_lt hlt, digitByte_digitOf hbyte]
      rfl
    · have hall : AllDigits bytes := fun b hb => h b (List.mem_append_left _ hb)
      rw [List.head?_append_of_ne_nil _ hnil] at hhead
      have hpos := digitsValue_pos hall hnil hhead
      have hdiv : (digitsValue bytes * 10 + digitOf byte) / 10 = digitsValue bytes := by omega
      have hmod : (digitsValue bytes * 10 + digitOf byte) % 10 = digitOf byte := by omega
      rw [digitsOf_of_ge (by omega), hdiv, hmod, ih hall hnil hhead, digitByte_digitOf hbyte]

theorem digitsValue_mod_ten_ne_zero (h : AllDigits bytes) (hne : bytes ≠ [])
    (hlast : bytes.getLast? ≠ some zeroByte) : digitsValue bytes % 10 ≠ 0 := by
  rcases List.eq_nil_or_concat bytes with rfl | ⟨init, last, rfl⟩
  · exact absurd rfl hne
  · rw [List.concat_eq_append] at h hlast ⊢
    have hdigit := h last (by simp)
    have hzero : digitOf last ≠ 0 := fun hzero =>
      hlast (by simp [(digitOf_eq_zero hdigit).mp hzero])
    have hlt := digitOf_lt hdigit
    rw [digitsValue_concat]
    omega

/-! ## A whole part and a fraction -/

def pointByte : Fin 256 := 46

def joinPoint (whole fraction : List (Fin 256)) : List (Fin 256) :=
  if fraction = [] then whole else whole ++ pointByte :: fraction

theorem eq_of_append_cons {α : Type*} {mark : α} {left right left' right' : List α}
    (h : mark ∉ left) (h' : mark ∉ left') (heq : left ++ mark :: right = left' ++ mark :: right') :
    left = left' ∧ right = right' := by
  induction left generalizing left' with
  | nil =>
    cases left' with
    | nil => exact ⟨rfl, (List.cons.inj heq).2⟩
    | cons x left' => exact absurd ((List.cons.inj heq).1 ▸ List.mem_cons_self) h'
  | cons x left ih =>
    cases left' with
    | nil => exact absurd ((List.cons.inj heq).1 ▸ List.mem_cons_self) h
    | cons y left' =>
      obtain ⟨rfl, htail⟩ := List.cons.inj heq
      obtain ⟨rfl, rfl⟩ := ih (fun hmem => h (List.mem_cons_of_mem _ hmem))
        (fun hmem => h' (List.mem_cons_of_mem _ hmem)) htail
      exact ⟨rfl, rfl⟩

/-- A whole part as a number's digits, and a fraction with no zero at its end. -/
structure Pointed (whole fraction : List (Fin 256)) : Prop where
  isWhole : ∃ n, whole = digitsOf n
  digits : AllDigits fraction
  trimmed : fraction.getLast? ≠ some zeroByte

namespace Pointed

variable {whole fraction whole' fraction' : List (Fin 256)}


theorem length_le (h : Pointed whole fraction)
    (hvalue : digitsValue (whole ++ fraction) * 10 ^ fraction'.length
      = digitsValue (whole' ++ fraction') * 10 ^ fraction.length) :
    fraction.length ≤ fraction'.length := by
  by_contra hlt
  have hlt := Nat.not_le.mp hlt
  have hne : fraction ≠ [] := by
    rintro rfl
    exact absurd hlt (Nat.not_lt_zero _)
  -- The longer fraction's value would end in zero.
  obtain ⟨more, hmore⟩ := Nat.exists_eq_add_of_lt hlt
  have hcancel : digitsValue (whole ++ fraction)
      = digitsValue (whole' ++ fraction') * 10 ^ more * 10 := by
    refine Nat.eq_of_mul_eq_mul_right (pow_pos (by decide) fraction'.length : 0 < 10 ^ _) ?_
    rw [hvalue, hmore]
    ring
  refine digitsValue_mod_ten_ne_zero ?_ (List.append_ne_nil_of_right_ne_nil _ hne) ?_
    (hcancel ▸ Nat.mul_mod_left _ _)
  · obtain ⟨n, rfl⟩ := h.isWhole
    exact List.forall_mem_append.mpr ⟨allDigits_digitsOf n, h.digits⟩
  · rw [List.getLast?_append_of_ne_nil _ hne]
    exact h.trimmed

/-- A whole part and a trimmed fraction are told by the value they write. -/
theorem eq_of_value_eq (h : Pointed whole fraction) (h' : Pointed whole' fraction')
    (hvalue : digitsValue (whole ++ fraction) * 10 ^ fraction'.length
      = digitsValue (whole' ++ fraction') * 10 ^ fraction.length) :
    whole = whole' ∧ fraction = fraction' := by
  have hlength : fraction.length = fraction'.length :=
    le_antisymm (h.length_le hvalue) (h'.length_le hvalue.symm)
  have hpos : 0 < 10 ^ fraction'.length := pow_pos (by decide) _
  rw [hlength] at hvalue
  have hsame := Nat.eq_of_mul_eq_mul_right hpos hvalue
  rw [digitsValue_append, digitsValue_append, hlength] at hsame
  have hlt := digitsValue_lt h.digits
  have hlt' := digitsValue_lt h'.digits
  rw [hlength] at hlt
  obtain ⟨n, rfl⟩ := h.isWhole
  obtain ⟨n', rfl⟩ := h'.isWhole
  rw [digitsValue_digitsOf, digitsValue_digitsOf] at hsame
  have hwhole : n = n' := by
    have hdiv : ∀ m rest, rest < 10 ^ fraction'.length →
        (m * 10 ^ fraction'.length + rest) / 10 ^ fraction'.length = m := fun m rest h => by
      rw [Nat.add_comm, Nat.add_mul_div_right _ _ hpos, Nat.div_eq_of_lt h, Nat.zero_add]
    rw [← hdiv n _ hlt, hsame, hdiv n' _ hlt']
  subst hwhole
  exact ⟨rfl, eq_of_digitsValue_eq h.digits h'.digits hlength (by omega)⟩

theorem joinPoint_inj (h : Pointed whole fraction) (h' : Pointed whole' fraction')
    (heq : joinPoint whole fraction = joinPoint whole' fraction') :
    whole = whole' ∧ fraction = fraction' := by
  have hnone : ∀ {w f : List (Fin 256)}, Pointed w f → pointByte ∉ w := by
    rintro w f hp hmem
    obtain ⟨n, rfl⟩ := hp.isWhole
    exact absurd (allDigits_digitsOf n _ hmem) (by decide)
  unfold joinPoint at heq
  split at heq <;> split at heq
  · next hf hf' => exact ⟨heq, hf.trans hf'.symm⟩
  · exact absurd (heq ▸ List.mem_append_right _ List.mem_cons_self) (hnone h)
  · exact absurd (heq ▸ List.mem_append_right _ List.mem_cons_self) (hnone h')
  · exact eq_of_append_cons (hnone h) (hnone h') heq

end Pointed

end Rdlt.Lib
