/-
  Rdlt.Lib.Checked

  What the success of a computation that may fail says: each step of it
  succeeded. A list mapped by a fallible function succeeds exactly when each of
  its elements does, so a failing list fails at some element, wherever the list
  is cut.
-/

import Mathlib

namespace Rdlt.Lib

variable {ε α β : Type}

/-! ## Steps -/

variable {f : α → Except ε β} {x : Except ε α} {b : β}

theorem bind_eq_ok : (x >>= f) = .ok b ↔ ∃ a, x = .ok a ∧ f a = .ok b := by
  constructor
  · intro h
    rcases x with e | a
    · cases h
    · exact ⟨a, rfl, h⟩
  · rintro ⟨a, rfl, h⟩
    exact h

theorem exists_of_isOk (h : x.isOk) : ∃ a, x = .ok a := by
  rcases x with e | a
  · cases h
  · exact ⟨a, rfl⟩

theorem pure_eq_ok {a b : α} : (pure a : Except ε α) = .ok b ↔ a = b := by
  simp [pure, Except.pure]

theorem throw_eq_ok {e : ε} {a : α} : (throw e : Except ε α) = .ok a ↔ False :=
  iff_of_false (fun h => by cases h) id

theorem throw_bind_eq_ok {e : ε} : ((throw e : Except ε α) >>= f) = .ok b ↔ False :=
  iff_of_false (fun h => by cases h) id

theorem ite_throw_bind_eq_ok {p : Prop} [Decidable p] {e : ε} {x : Except ε β} :
    (if p then (throw e : Except ε α) >>= f else x) = .ok b ↔ ¬ p ∧ x = .ok b := by
  by_cases hp : p
  · simp [hp, throw_bind_eq_ok]
  · simp [hp]

theorem mapError_eq_ok {ε' : Type} {f : ε → ε'} {a : α} : x.mapError f = .ok a ↔ x = .ok a := by
  cases x <;> simp [Except.mapError]

theorem ok_bind (a : α) (f : α → Except ε β) : ((.ok a : Except ε α) >>= f) = f a := rfl

/-! ## Lists -/

variable {l : List α} {m : List β}

theorem mapM_eq_ok_iff : l.mapM f = .ok m ↔ List.Forall₂ (fun a b => f a = .ok b) l m := by
  induction l generalizing m with
  | nil =>
    rw [List.mapM_nil, pure_eq_ok, List.forall₂_nil_left_iff]
    exact eq_comm
  | cons a l ih =>
    simp only [List.mapM_cons, bind_eq_ok, pure_eq_ok, List.forall₂_cons_left_iff]
    constructor
    · rintro ⟨b, hb, bs, hbs, rfl⟩
      exact ⟨b, bs, hb, ih.mp hbs, rfl⟩
    · rintro ⟨b, bs, hb, hbs, rfl⟩
      exact ⟨b, hb, bs, ih.mpr hbs, rfl⟩

theorem eq_map_of_mapM_eq_ok {g : α → β} (hg : ∀ a b, f a = .ok b → g a = b)
    (h : l.mapM f = .ok m) : m = l.map g := by
  have hall := mapM_eq_ok_iff.mp h
  clear h
  induction hall with
  | nil => rfl
  | cons ha _ ih => rw [List.map_cons, hg _ _ ha, ih]

theorem mapM_eq_ok_of_forall {g : α → β} (h : ∀ a ∈ l, f a = .ok (g a)) :
    l.mapM f = .ok (l.map g) := by
  rw [mapM_eq_ok_iff, List.forall₂_map_right_iff, List.forall₂_same]
  exact h

theorem getElem?_of_mapM_eq_ok {index : Nat} {a : α} (h : l.mapM f = .ok m)
    (ha : l[index]? = some a) (hb : f a = .ok b) :
    m[index]? = some b := by
  have hall := mapM_eq_ok_iff.mp h
  clear h
  induction hall generalizing index with
  | nil => simp at ha
  | cons hfirst _ ih =>
    cases index with
    | zero =>
      cases ha
      cases hfirst.symm.trans hb
      rfl
    | succ index => exact ih ha

theorem mapM_bind_mapM_eq_ok {γ : Type} {g : β → Except ε γ} {n : List γ} :
    (l.mapM f >>= fun m => m.mapM g) = .ok n ↔ (l.mapM fun a => f a >>= g) = .ok n := by
  induction l generalizing n with
  | nil => simp [List.mapM_nil, bind, Except.bind, pure, Except.pure]
  | cons a l ih =>
    simp only [bind_eq_ok] at ih
    simp only [List.mapM_cons, bind_eq_ok, pure_eq_ok]
    constructor
    · rintro ⟨_, ⟨b, hb, m, hm, rfl⟩, h⟩
      simp only [List.mapM_cons, bind_eq_ok, pure_eq_ok] at h
      obtain ⟨c, hc, n', hn', rfl⟩ := h
      exact ⟨c, ⟨b, hb, hc⟩, n', ih.mp ⟨m, hm, hn'⟩, rfl⟩
    · rintro ⟨c, ⟨b, hb, hc⟩, n', hn', rfl⟩
      obtain ⟨m, hm, hn'⟩ := ih.mpr hn'
      refine ⟨b :: m, ⟨b, hb, m, hm, rfl⟩, ?_⟩
      simp only [List.mapM_cons, bind_eq_ok, pure_eq_ok]
      exact ⟨c, hc, n', hn', rfl⟩

theorem exists_mapM_eq_ok_iff : (∃ m, l.mapM f = .ok m) ↔ ∀ a ∈ l, ∃ b, f a = .ok b := by
  induction l with
  | nil => simp [pure_eq_ok]
  | cons a l ih =>
    simp only [List.mapM_cons, bind_eq_ok, pure_eq_ok, List.forall_mem_cons, ← ih]
    constructor
    · rintro ⟨_, b, hb, bs, hbs, rfl⟩
      exact ⟨⟨b, hb⟩, bs, hbs⟩
    · rintro ⟨⟨b, hb⟩, bs, hbs⟩
      exact ⟨_, b, hb, bs, hbs, rfl⟩

theorem forM_eq_ok {f : α → Except ε Unit} : l.forM f = .ok () ↔ ∀ a ∈ l, f a = .ok () := by
  induction l with
  | nil => simp [pure_eq_ok]
  | cons a l ih =>
    change (f a >>= fun _ => l.forM f) = .ok () ↔ _
    rw [bind_eq_ok, List.forall_mem_cons]
    constructor
    · rintro ⟨⟨⟩, ha, hl⟩
      exact ⟨ha, ih.mp hl⟩
    · rintro ⟨ha, hl⟩
      exact ⟨(), ha, ih.mpr hl⟩

theorem exists_foldlM_eq_ok_iff {f : β → α → Except ε β} {p : α → Prop}
    (hstep : ∀ b a, (∃ b', f b a = .ok b') ↔ p a) :
    (∃ b', l.foldlM f b = .ok b') ↔ ∀ a ∈ l, p a := by
  induction l generalizing b with
  | nil => simp [pure_eq_ok]
  | cons a l ih =>
    simp only [List.foldlM_cons, bind_eq_ok, List.forall_mem_cons]
    constructor
    · rintro ⟨b', next, hnext, hrest⟩
      exact ⟨(hstep b a).mp ⟨next, hnext⟩, ih.mp ⟨b', hrest⟩⟩
    · rintro ⟨ha, hrest⟩
      obtain ⟨next, hnext⟩ := (hstep b a).mpr ha
      obtain ⟨b', hb'⟩ := ih.mpr hrest
      exact ⟨b', next, hnext, hb'⟩

/-! ## Computations compared -/

/-- Two computations agree up to `r`: both fail, or both succeed, with results `r` relates. -/
def Agree (r : α → α → Prop) : Except ε α → Except ε α → Prop
  | .ok left, .ok right => r left right
  | .error _, .error _ => True
  | _, _ => False

variable {r : α → α → Prop} {left right : Except ε α}

theorem agree_of (hok : (∃ a, left = .ok a) ↔ ∃ a, right = .ok a)
    (hr : ∀ a b, left = .ok a → right = .ok b → r a b) : Agree r left right := by
  cases left with
  | error e =>
    cases right with
    | error e' => trivial
    | ok b =>
      obtain ⟨a, h⟩ := hok.mpr ⟨b, rfl⟩
      cases h
  | ok a =>
    cases right with
    | error e' =>
      obtain ⟨b, h⟩ := hok.mp ⟨a, rfl⟩
      cases h
    | ok b => exact hr a b rfl rfl

variable {γ : Type} {E : ε → Prop}

/-- `Q` holds of the value of a step that succeeds, and `E` of what one that fails leaves. -/
def Outcome (Q : α → Prop) (E : ε → Prop) : Except ε α → Prop
  | .ok a => Q a
  | .error e => E e

namespace Outcome

theorem ok {Q : α → Prop} {a : α} (h : Q a) : Outcome Q E (.ok a) := h

theorem bind {Q : α → Prop} {R : β → Prop} {x : Except ε α} {f : α → Except ε β}
    (hx : Outcome Q E x) (hf : ∀ a, Q a → Outcome R E (f a)) : Outcome R E (x >>= f) := by
  cases x with
  | error e => exact hx
  | ok a => exact hf a hx

theorem imp {Q R : α → Prop} {x : Except ε α} (hx : Outcome Q E x) (h : ∀ a, Q a → R a) :
    Outcome R E x := by
  cases x with
  | error e => exact hx
  | ok a => exact h a hx

theorem foldlM {Q : List γ → α → Prop} {f : α → γ → Except ε α} {l : List γ} {a : α} (h : Q l a)
    (hf : ∀ c rest a, Q (c :: rest) a → Outcome (Q rest) E (f a c)) :
    Outcome (Q []) E (l.foldlM f a) := by
  induction l generalizing a with
  | nil => exact h
  | cons c rest ih =>
    rw [List.foldlM_cons]
    exact (hf c rest a h).bind fun a ha => ih ha

end Outcome

end Rdlt.Lib
