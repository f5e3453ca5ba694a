/-
  Rdlt.Lib.Saturating

  Counters of 64 bits that stop at their greatest value: adding is exact as long
  as the sum fits.
-/

import Mathlib

namespace Rdlt.Lib

def u64Max : Nat := 2 ^ 64 - 1

/-- The sum of two counters, stopping at the greatest value. -/
def saturatingAdd (left right : Nat) : Nat := min (left + right) u64Max

theorem saturatingAdd_of_le {left right : Nat} (h : left + right ≤ u64Max) :
    saturatingAdd left right = left + right :=
  min_eq_left h

/-! ## Tallies -/

/-- `f` tallies records that `add` adds up, from `zero`. -/
structure Tally {β : Type} (zero : β) (add : β → β → β) (f : β → Nat) : Prop where
  zero : f zero = 0
  add : ∀ {left right : β}, f left + f right ≤ u64Max → f (add left right) = f left + f right

theorem Tally.foldl {α β : Type} {zero : β} {add : β → β → β} {f : β → Nat}
    (h : Tally zero add f) (of : α → β) (l : List α) (start : β)
    (hfits : f start + (l.map fun a => f (of a)).sum ≤ u64Max) :
    f (l.foldl (fun record a => add record (of a)) start)
      = f start + (l.map fun a => f (of a)).sum := by
  induction l generalizing start with
  | nil => simp
  | cons a l ih =>
    simp only [List.map_cons, List.sum_cons] at hfits ⊢
    have hstep : f (add start (of a)) = f start + f (of a) := h.add (by omega)
    rw [List.foldl_cons, ih _ (by omega), hstep]
    omega

end Rdlt.Lib
