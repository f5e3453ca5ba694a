/-
  Rdlt.Lib.Latest

  The element of greatest rank in a list, the first of them where several rank
  as high: what it is of mapped and joined lists, and, where ranks tell elements
  apart, of a list that leaves out only elements others rank above.
-/

import Mathlib

namespace Rdlt.Lib

variable {α β σ : Type*} [LinearOrder σ]

/-- The first element of the greatest rank. -/
def latest (rank : α → σ) (l : List α) : Option α := l.argmax rank

@[simp] theorem latest_nil (rank : α → σ) : latest rank [] = none := rfl

theorem latest_concat (rank : α → σ) (l : List α) (a : α) : latest rank (l ++ [a])
      = match latest rank l with
        | none => some a
        | some best => if rank a ≤ rank best then some best else some a := by
  rw [latest, List.argmax_concat, ← latest]
  cases latest rank l with
  | none => rfl
  | some best =>
    by_cases hle : rank a ≤ rank best
    · simp [hle, not_lt.mpr hle]
    · simp [hle, not_le.mp hle]

variable {rank : α → σ} {l : List α}

theorem latest_eq_none : latest rank l = none ↔ l = [] := List.argmax_eq_none

theorem mem_of_latest {a : α} (h : latest rank l = some a) : a ∈ l := List.argmax_mem h

theorem le_of_latest {a b : α} (h : latest rank l = some a) (hb : b ∈ l) : rank b ≤ rank a :=
  List.le_of_mem_argmax hb h

theorem latest_map (g : α → β) (rank : β → σ) (l : List α) :
    latest rank (l.map g) = (latest (rank ∘ g) l).map g := by
  induction l using List.reverseRecOn with
  | nil => rfl
  | append_singleton l a ih =>
    rw [List.map_append, List.map_singleton, latest_concat, latest_concat, ih]
    cases latest (rank ∘ g) l with
    | none => rfl
    | some best =>
      by_cases hle : rank (g a) ≤ rank (g best) <;> simp [hle]

theorem latest_eq_some_iff {a : α} (hinj : ∀ b ∈ l, ∀ c ∈ l, rank b = rank c → b = c) :
    latest rank l = some a ↔ a ∈ l ∧ ∀ b ∈ l, rank b ≤ rank a := by
  constructor
  · intro h
    exact ⟨mem_of_latest h, fun b hb => le_of_latest h hb⟩
  · rintro ⟨hmem, hle⟩
    cases hbest : latest rank l with
    | none =>
      rw [latest_eq_none.mp hbest] at hmem
      cases hmem
    | some best =>
      have hsame : rank best = rank a :=
        le_antisymm (hle best (mem_of_latest hbest)) (le_of_latest hbest hmem)
      rw [hinj best (mem_of_latest hbest) a hmem hsame]

theorem latest_filter_of_superseded {m : List α} {p : α → Bool}
    (hinj : ∀ b ∈ l, ∀ c ∈ l, rank b = rank c → b = c) (hsub : m ⊆ l)
    (hsuperseded : ∀ a ∈ l, a ∉ m → p a → ∃ b ∈ l, p b ∧ rank a < rank b) :
    latest rank (m.filter p) = latest rank (l.filter p) := by
  cases hlatest : latest rank (l.filter p) with
  | none =>
    rw [latest_eq_none, List.filter_eq_nil_iff] at hlatest ⊢
    exact fun a ha => hlatest a (hsub ha)
  | some a =>
    obtain ⟨hal, hap⟩ := List.mem_filter.mp (mem_of_latest hlatest)
    have ham : a ∈ m := by
      by_contra ham
      obtain ⟨b, hb, hbp, hlt⟩ := hsuperseded a hal ham hap
      exact absurd (le_of_latest hlatest (List.mem_filter.mpr ⟨hb, hbp⟩)) (not_le.mpr hlt)
    have hinm : ∀ b ∈ m.filter p, ∀ c ∈ m.filter p, rank b = rank c → b = c := fun b hb c hc =>
      hinj b (hsub (List.mem_of_mem_filter hb)) c (hsub (List.mem_of_mem_filter hc))
    refine (latest_eq_some_iff hinm).mpr ⟨List.mem_filter.mpr ⟨ham, hap⟩, fun b hb => ?_⟩
    obtain ⟨hbm, hbp⟩ := List.mem_filter.mp hb
    exact le_of_latest hlatest (List.mem_filter.mpr ⟨hsub hbm, hbp⟩)

end Rdlt.Lib
