/-
  Rdlt.Lib.StableSort

  Insertion sort as the model of a stable `sort_by`: which elements a filter
  keeps does not depend on whether it runs before or after the sort, elements
  the order does not tell apart keep the order they came in, and two lists, the
  first strictly before the second, sort one after the other.
-/

import Mathlib

namespace Rdlt.Lib

variable {α β : Type*} {r : α → α → Prop}

/-! ## Steps in order -/

/-- Where each step meets its element and every later one keeps what was met, a run of steps in
    order meets every element. -/
theorem foldl_met {step : β → α → β} {I : β → Prop} {M : β → α → Prop}
    (hkept : ∀ b a, I b → I (step b a)) (hmeets : ∀ b a, I b → M (step b a) a)
    (hstays : ∀ b a later, I b → M b a → r a later → M (step b later) a) {l : List α} {b : β}
    (hsorted : l.Pairwise r) (hb : I b) : ∀ a ∈ l, M (l.foldl step b) a := by
  induction l using List.reverseRecOn with
  | nil => simp
  | append_singleton l last ih =>
    obtain ⟨hl, -, hlast⟩ := List.pairwise_append.mp hsorted
    have hrun : I (l.foldl step b) := List.foldlRecOn l step hb fun b h a _ => hkept b a h
    intro a ha
    rw [List.foldl_append]
    rcases List.mem_append.mp ha with ha | ha
    · exact hstays _ a last hrun (ih hl a ha) (hlast a ha last List.mem_cons_self)
    · cases List.mem_singleton.mp ha
      exact hmeets _ _ hrun

theorem foldl_of_fixed {step : β → α → β} {l : List α} {b : β} (h : ∀ a ∈ l, step b a = b) :
    l.foldl step b = b :=
  List.foldlRecOn (motive := (· = b)) l step rfl fun _ hb a ha => hb ▸ h a ha

variable [DecidableRel r]

/-! ## Filters and sorts -/

variable (p : α → Bool) (l : List α)

/-- Dropping elements commutes with inserting into a sorted list. -/
theorem filter_orderedInsert [IsTrans α r] (a : α) (l : List α) (hl : l.Pairwise r) :
    (l.orderedInsert r a).filter p
      = if p a then (l.filter p).orderedInsert r a else l.filter p := by
  induction l with
  | nil => by_cases hp : p a <;> simp [hp]
  | cons b l ih =>
    obtain ⟨hb, hl⟩ := List.pairwise_cons.mp hl
    by_cases hab : r a b
    · rw [List.orderedInsert_cons_of_le _ _ hab, List.filter_cons]
      -- `a` goes before everything the filter leaves of `b :: l`
      have hfront : ∀ c ∈ (b :: l).filter p, r a c := by
        intro c hc
        rcases List.mem_cons.mp (List.mem_of_mem_filter hc) with rfl | hc
        · exact hab
        · exact trans_of r hab (hb c hc)
      by_cases hp : p a
      · rw [if_pos hp, if_pos hp]
        cases hf : (b :: l).filter p with
        | nil => rfl
        | cons c m =>
          rw [List.orderedInsert_cons_of_le]
          exact hfront c (by rw [hf]; exact List.mem_cons_self)
      · rw [if_neg hp, if_neg hp]
    · rw [List.orderedInsert_of_not_le _ _ hab, List.filter_cons, ih hl, List.filter_cons]
      by_cases hp : p a <;> by_cases hpb : p b <;> simp [hp, hpb, hab]

theorem filter_insertionSort [Std.Total r] [IsTrans α r] :
    (l.insertionSort r).filter p = (l.filter p).insertionSort r := by
  induction l with
  | nil => rfl
  | cons a l ih =>
    rw [List.insertionSort_cons, filter_orderedInsert p a _ (List.pairwise_insertionSort r l),
      ih, List.filter_cons]
    by_cases hp : p a <;> simp [hp]

theorem filter_insertionSort_of_alike [Std.Total r] [IsTrans α r]
    (h : ∀ a b, p a → p b → r a b) : (l.insertionSort r).filter p = l.filter p := by
  rw [filter_insertionSort]
  apply List.Pairwise.insertionSort_eq
  apply List.pairwise_of_forall_mem_list
  intro a ha b hb
  exact h a b (List.mem_filter.mp ha).2 (List.mem_filter.mp hb).2

/-! ## Sorting two lists, the first before the second -/

theorem orderedInsert_append_of_le (a : α) (l m : List α) (h : ∀ b ∈ m, r a b) :
    (l ++ m).orderedInsert r a = l.orderedInsert r a ++ m := by
  induction l with
  | nil =>
    cases m with
    | nil => rfl
    | cons b m =>
      rw [List.nil_append, List.orderedInsert_cons_of_le _ _ (h b List.mem_cons_self)]
      rfl
  | cons c l ih =>
    by_cases hac : r a c
    · simp [hac]
    · simp [hac, ih]

theorem insertionSort_append_of_le (l m : List α) (h : ∀ a ∈ l, ∀ b ∈ m, r a b) :
    (l ++ m).insertionSort r = l.insertionSort r ++ m.insertionSort r := by
  induction l with
  | nil => rfl
  | cons a l ih =>
    have hl : ∀ a' ∈ l, ∀ b ∈ m, r a' b := fun a' ha' => h a' (List.mem_cons_of_mem _ ha')
    rw [List.cons_append, List.insertionSort_cons, ih hl, List.insertionSort_cons]
    apply orderedInsert_append_of_le
    intro b hb
    exact h a List.mem_cons_self b ((List.mem_insertionSort r).mp hb)

theorem find?_key {β : Type*} [BEq α] [LawfulBEq α] {l : List (α × β)}
    (hnodup : (l.map Prod.fst).Nodup) {entry : α × β} (h : entry ∈ l) :
    l.find? (fun other => other.1 == entry.1) = some entry := by
  obtain ⟨other, hother⟩ : ∃ other, l.find? (fun other => other.1 == entry.1) = some other := by
    rw [← Option.isSome_iff_exists, List.find?_isSome]
    exact ⟨entry, h, beq_self_eq_true _⟩
  have hkey := List.find?_some hother
  rw [hother, List.inj_on_of_nodup_map hnodup (List.mem_of_find?_eq_some hother) h (eq_of_beq hkey)]

/-! ## Lists compared class by class -/

theorem perm_of_forall_filter_perm [DecidableEq β] (f : α → β) {l m : List α}
    (h : ∀ k, (l.filter (f · = k)).Perm (m.filter (f · = k))) : l.Perm m := by
  classical
  rw [List.perm_iff_count]
  intro a
  have hcount : ∀ n : List α, n.count a = (n.filter (f · = f a)).count a := by
    intro n
    rw [List.count_filter (by simp)]
  rw [hcount l, hcount m, (h (f a)).count_eq]

end Rdlt.Lib
