/-
  Rdlt.Lib.Each

  Lists every element of which is as it should be, given those before it: one
  more element is added by saying what holds of it, after the list.
-/

import Mathlib.Data.List.Induction

namespace Rdlt.Lib

variable {α : Type} {P : List α → α → Prop} {l : List α}

def Each (P : List α → α → Prop) (l : List α) : Prop :=
  ∀ before x after, l = before ++ x :: after → P before x

theorem each_nil : Each P [] := by
  intro before x after h
  simp at h

theorem Each.concat (h : Each P l) {x : α} (hx : P l x) : Each P (l ++ [x]) := by
  intro before y after hsplit
  rcases List.eq_nil_or_concat after with rfl | ⟨after, last, rfl⟩
  · obtain ⟨rfl, hlast⟩ := List.append_inj' hsplit rfl
    exact List.singleton_inj.mp hlast ▸ hx
  · have hsplit' : l ++ [x] = (before ++ y :: after) ++ [last] := by
      rw [hsplit]
      simp
    obtain ⟨rfl, -⟩ := List.append_inj' hsplit' rfl
    exact h before y after rfl

theorem Each.left {more : List α} (h : Each P (l ++ more)) : Each P l := by
  intro before x after hsplit
  exact h before x (after ++ more) (by rw [hsplit, List.append_assoc, List.cons_append])

theorem Each.append (h : Each P l) {more : List α}
    (hmore : ∀ before x after, more = before ++ x :: after → P (l ++ before) x) :
    Each P (l ++ more) := by
  induction more using List.reverseRecOn with
  | nil => simpa using h
  | append_singleton more x ih =>
    rw [← List.append_assoc]
    refine (ih fun before y after hsplit => hmore before y (after ++ [x]) ?_).concat
      (hmore more x [] rfl)
    rw [hsplit]
    simp

end Rdlt.Lib
