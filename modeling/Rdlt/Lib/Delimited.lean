/-
  Rdlt.Lib.Delimited

  Codes whose words are told from whatever follows them: no word is a proper
  prefix of another, and words written one after another are read back one after
  another.
-/

import Mathlib

namespace Rdlt.Lib

variable {α β : Type}

/-- A code whose words are told from what follows them. -/
def Delimited (code : α → List β) : Prop :=
  ∀ ⦃a b : α⦄ ⦃s t : List β⦄, code a ++ s = code b ++ t → a = b ∧ s = t

namespace Delimited

variable {code : α → List β}

theorem injective (h : Delimited code) : Function.Injective code := by
  intro a b heq
  exact (h (congrArg (· ++ []) heq)).1

theorem eq_of_prefix (h : Delimited code) {a b : α} (hstarts : code a <+: code b) : a = b := by
  obtain ⟨rest, heq⟩ := hstarts
  exact (h (heq.trans (List.append_nil _).symm)).1

theorem eq_of_flatMap (h : Delimited code) {l l' : List α} (hlength : l.length = l'.length)
    (heq : l.flatMap code = l'.flatMap code) : l = l' := by
  induction l generalizing l' with
  | nil => exact (List.length_eq_zero_iff.mp hlength.symm).symm
  | cons a l ih =>
    cases l' with
    | nil => cases hlength
    | cons b l' =>
      rw [List.flatMap_cons, List.flatMap_cons] at heq
      obtain ⟨rfl, hrest⟩ := h heq
      rw [ih (Nat.succ.inj hlength) hrest]

end Delimited

/-! ## Lengths -/

instance byteNeZero : NeZero 256 := ⟨by decide⟩

/-- A count in LEB128: seven bits a byte, lowest first, the high bit saying more follow. -/
def leb128 (count : Nat) : List (Fin 256) :=
  if count < 128 then [Fin.ofNat 256 count]
  else Fin.ofNat 256 (128 + count % 128) :: leb128 (count / 128)

theorem delimited_leb128 : Delimited leb128 := by
  intro a
  induction a using Nat.strong_induction_on with
  | _ a ih =>
    intro b s t heq
    rw [leb128, leb128.eq_def b] at heq
    split at heq <;> split at heq
    · rename_i ha hb
      obtain ⟨hhead, hrest⟩ := List.cons.inj heq
      refine ⟨?_, hrest⟩
      have hval := congrArg Fin.val hhead
      simp only [Fin.val_ofNat] at hval
      omega
    · rename_i ha hb
      have hval := congrArg Fin.val (List.cons.inj heq).1
      simp only [Fin.val_ofNat] at hval
      omega
    · rename_i ha hb
      have hval := congrArg Fin.val (List.cons.inj heq).1
      simp only [Fin.val_ofNat] at hval
      omega
    · rename_i ha hb
      obtain ⟨hhead, hrest⟩ := List.cons.inj heq
      have hval := congrArg Fin.val hhead
      simp only [Fin.val_ofNat] at hval
      obtain ⟨hquotient, hrest⟩ := ih (a / 128) (by omega) hrest
      exact ⟨by omega, hrest⟩

def withLength (bytes : List (Fin 256)) : List (Fin 256) := leb128 bytes.length ++ bytes

theorem delimited_withLength : Delimited withLength := by
  intro a b s t heq
  rw [withLength, withLength, List.append_assoc, List.append_assoc] at heq
  obtain ⟨hlength, hrest⟩ := delimited_leb128 heq
  exact List.append_inj hrest hlength

end Rdlt.Lib
