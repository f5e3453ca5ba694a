/-
  Rdlt.Merge.Guard

  What stops a change of one key that comes late: the key's tombstone and the
  table's bound.
-/

import Mathlib

namespace Rdlt.Merge

/-- One key's tombstone, the sequence that removed it and what names it, and the table's bound,
    which leaves no tombstone before it. -/
@[ext] structure Guard (σ P : Type) [LinearOrder σ] where
  stone : Option (σ × P)
  bound : Option σ
  uncovered : ∀ seq ∈ bound, ∀ held ∈ stone, seq ≤ held.1

namespace Guard

variable {σ P : Type} [LinearOrder σ] (stone : Option (σ × P)) (guard : Guard σ P)
  (bound : Option σ) (seq : σ)

def leaves (bound : Option σ) (seq : σ) : Bool := bound.all (· ≤ seq)

@[simp] theorem leaves_none : leaves none seq = true := rfl

@[simp] theorem leaves_some (bound seq : σ) : leaves (some bound) seq = decide (bound ≤ seq) := rfl

theorem leaves_iff {bound : Option σ} {seq : σ} :
    leaves bound seq ↔ ∀ held ∈ bound, held ≤ seq := by
  cases bound <;> simp [leaves]

def of (stone : Option (σ × P)) (bound : Option σ) : Guard σ P where
  stone := stone.filter fun held => leaves bound held.1
  bound := bound
  uncovered := by
    rintro seq rfl held hheld
    simpa [leaves] using (Option.filter_eq_some_iff.mp hheld).2

section

variable (guard : Guard σ P) (seq : σ)

/-- Whether a change at `seq` that names no key may apply. -/
def reached : Bool := leaves guard.bound seq

/-- Whether a change of the key at `seq` may apply. -/
def admits : Bool :=
  guard.reached seq && guard.stone.all fun held => held.1 < seq

/-- The key was removed at `seq`. -/
def bury (names : P) : Guard σ P :=
  of (some (seq, names)) guard.bound

/-- A row sequenced after the tombstone holds the key now. -/
def lift : Guard σ P := of none guard.bound

/-- Every row before `seq` was removed. -/
def raise : Guard σ P :=
  of guard.stone (some (guard.bound.elim seq (max · seq)))

end

/-! ## What each operation leaves -/

@[simp] theorem of_bound : (of stone bound).bound = bound := rfl

@[simp] theorem of_stone :
    (of stone bound).stone = stone.filter fun held => leaves bound held.1 := rfl

theorem of_filter : of (stone.filter fun held => leaves bound held.1) bound = of stone bound := by
  refine Guard.ext ?_ rfl
  simp

theorem of_self : of guard.stone guard.bound = guard := by
  obtain ⟨stone, bound, huncovered⟩ := guard
  cases bound with
  | none => cases stone <;> rfl
  | some seq =>
    cases stone with
    | none => rfl
    | some held =>
      have hle : seq ≤ held.1 := huncovered seq rfl held rfl
      ext1
      · simp [leaves, hle]
      · rfl

theorem reached_of_admits {guard : Guard σ P} {seq : σ} (h : guard.admits seq) :
    guard.reached seq := by
  simp only [admits, Bool.and_eq_true] at h
  exact h.1

theorem admits_iff {guard : Guard σ P} {seq : σ} : guard.admits seq ↔
      (∀ bound ∈ guard.bound, bound ≤ seq) ∧ ∀ held ∈ guard.stone, held.1 < seq := by
  cases hb : guard.bound <;> cases hs : guard.stone <;> simp [admits, reached, leaves, hb, hs]

theorem reached_iff {guard : Guard σ P} {seq : σ} :
    guard.reached seq ↔ ∀ bound ∈ guard.bound, bound ≤ seq := leaves_iff

theorem bury_stone {guard : Guard σ P} {seq : σ} (h : guard.reached seq) (names : P) :
    (guard.bury seq names).stone = some (seq, names) := by
  simpa [bury, reached] using h

@[simp] theorem bury_bound (names : P) : (guard.bury seq names).bound = guard.bound := rfl

@[simp] theorem lift_stone : guard.lift.stone = none := rfl

@[simp] theorem lift_bound : guard.lift.bound = guard.bound := rfl

theorem raise_bound {guard : Guard σ P} {seq : σ} (h : guard.reached seq) :
    (guard.raise seq).bound = some seq := by
  cases hb : guard.bound with
  | none => simp [raise, hb]
  | some bound =>
    have hle : bound ≤ seq := reached_iff.mp h bound hb
    simp [raise, hb, hle]

theorem raise_of_le {guard : Guard σ P} {bound seq : σ} (hbound : bound ∈ guard.bound)
    (hle : seq ≤ bound) : guard.raise seq = guard := by
  have hheld : guard.bound = some bound := hbound
  rw [raise, hheld, Option.elim_some, max_eq_left hle, ← hheld, of_self]

theorem raise_stone {guard : Guard σ P} {seq : σ} (h : guard.reached seq) :
    (guard.raise seq).stone = guard.stone.filter fun held => seq ≤ held.1 := by
  have hbound := raise_bound h
  rw [raise, of_bound] at hbound
  simp [raise, hbound, leaves]

theorem raise_of : (of stone bound).raise seq = of stone (some (bound.elim seq (max · seq))) := by
  refine Guard.ext ?_ rfl
  cases stone with
  | none => rfl
  | some held =>
    cases bound with
    | none => simp [raise, leaves]
    | some bound =>
      by_cases hle : bound ≤ held.1 <;> simp [raise]

end Guard

end Rdlt.Merge
