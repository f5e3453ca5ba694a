/-
  Rdlt.Merge.Laws

  The laws of one key's table: merging a change again does nothing, and where a
  commit falls between changes does not matter. Both follow from what a state
  absorbs: a change it has met, however it met it, it does not meet again.
-/

import Rdlt.Merge.Keyed

namespace Rdlt.Merge.Keyed

variable {ι V σ P : Type} [LinearOrder σ]

/-! ## The order changes apply in -/

theorem Change.le_of_before {left right : Change ι V σ P} (h : left.before right) :
    left.seq ≤ right.seq := by
  rcases h with hlt | ⟨heq, -⟩
  · exact hlt.le
  · exact heq.le

instance : Std.Total (Change.before (ι := ι) (V := V) (σ := σ) (P := P)) where
  total left right := by
    rcases lt_trichotomy left.seq right.seq with hlt | heq | hgt
    · exact .inl (.inl hlt)
    · by_cases htruncate : left.op = .truncate
      · exact .inl (.inr ⟨heq, .inl htruncate⟩)
      · exact .inr (.inr ⟨heq.symm, .inr htruncate⟩)
    · exact .inr (.inl hgt)

instance : IsTrans (Change ι V σ P) Change.before where
  trans a b c hab hbc := by
    rcases hab with hab | ⟨hab, hop⟩
    · exact .inl (hab.trans_le (Change.le_of_before hbc))
    · rcases hbc with hbc | ⟨hbc, hop'⟩
      · exact .inl (hab ▸ hbc)
      · refine .inr ⟨hab.trans hbc, ?_⟩
        rcases hop with hop | hop
        · exact .inl hop
        · rcases hop' with hop' | hop'
          · exact absurd hop' hop
          · exact .inr hop'

/-! ## What a state refuses -/

theorem Row.behind_iff {row : Row ι V σ} {seq : σ} :
    row.behind seq ↔ seq < row.seq ∨ (row.seq = seq ∧ row.truncated = false) := by
  simp [Row.behind]

theorem Row.behind_eq_false_iff {row : Row ι V σ} {seq : σ} :
    row.behind seq = false ↔ row.seq < seq ∨ (row.seq = seq ∧ row.truncated) := by
  rw [← Bool.not_eq_true, Row.behind_iff]
  rcases lt_trichotomy row.seq seq with hlt | heq | hgt
  · simp [hlt, hlt.ne, hlt.not_gt]
  · simp [heq]
  · simp [hgt, hgt.ne', hgt.not_gt]

namespace State

variable {state : State ι V σ P} {seq : σ} {layout : Layout ι} {change : Change ι V σ P}
  {changes : List (Change ι V σ P)}

theorem accepts_iff : state.accepts seq ↔
      (∀ bound ∈ state.guard.bound, bound ≤ seq) ∧ (∀ held ∈ state.guard.stone, held.1 < seq) ∧
        ∀ row ∈ state.row, row.seq < seq ∨ (row.seq = seq ∧ row.truncated) := by
  rw [accepts, Bool.and_eq_true, Guard.admits_iff, and_assoc]
  cases state.row with
  | none => simp
  | some row => simp [Row.behind_eq_false_iff]

theorem accepts_eq_false_iff : state.accepts seq = false ↔
      (∃ bound ∈ state.guard.bound, seq < bound) ∨ (∃ held ∈ state.guard.stone, seq ≤ held.1) ∨
        ∃ row ∈ state.row, seq < row.seq ∨ (row.seq = seq ∧ row.truncated = false) := by
  rw [accepts, Bool.and_eq_false_iff, ← Bool.not_eq_true (state.guard.admits seq),
    Guard.admits_iff, not_and_or, or_assoc]
  cases state.row with
  | none => simp
  | some row => simp [Row.behind_iff]

theorem lt_of_refused {past : σ} (hpast : state.accepts past) (h : state.accepts seq = false) :
    (∃ bound ∈ state.guard.bound, seq < bound) ∨ seq < past := by
  obtain ⟨-, hstones, hrows⟩ := accepts_iff.mp hpast
  rcases accepts_eq_false_iff.mp h with hbound | ⟨held, hheld, hle⟩ | ⟨row, hrow, hbehind⟩
  · exact .inl hbound
  · exact .inr (hle.trans_lt (hstones held hheld))
  · refine .inr ?_
    rcases hrows row hrow with hlt | ⟨heq, htruncated⟩
    · rcases hbehind with hbehind | ⟨rfl, -⟩
      · exact hbehind.trans hlt
      · exact hlt
    · rcases hbehind with hbehind | ⟨-, hnot⟩
      · exact heq ▸ hbehind
      · simp [htruncated] at hnot

/-! ## Refusals last -/

variable [DecidableEq ι]

theorem Row.le_of_truncate {row row' : Row ι V σ} (h : row' ∈ Row.truncate layout change row) :
    (row' = row ∧ change.seq ≤ row.seq) ∨ (row.seq < change.seq ∧ row'.seq = change.seq) := by
  unfold Row.truncate at h
  split at h
  · rename_i hlt
    obtain ⟨time, -, rfl⟩ := Option.map_eq_some_iff.mp h
    exact .inr ⟨hlt, rfl⟩
  · rename_i hnot
    cases h
    exact .inl ⟨rfl, not_lt.mp hnot⟩

theorem refused_truncate (h : state.accepts seq = false) :
    (state.truncate layout change).accepts seq = false := by
  unfold truncate
  split
  case isFalse => exact h
  case isTrue hreached =>
    rw [accepts_eq_false_iff] at h ⊢
    by_cases hhard : layout.time.isNone
    · -- removing outright raises the bound past whatever it removes
      simp only [hhard, if_true, Guard.raise_bound hreached, Guard.raise_stone hreached,
        Option.mem_some_iff, exists_eq_left']
      rcases h with ⟨bound, hbound, hlt⟩ | ⟨held, hheld, hle⟩ | ⟨row, hrow, hbehind⟩
      · exact .inl (hlt.trans_le (Guard.reached_iff.mp hreached bound hbound))
      · by_cases hcovered : change.seq ≤ held.1
        · exact .inr (.inl ⟨held, Option.mem_filter_iff.mpr ⟨hheld, by simpa using hcovered⟩, hle⟩)
        · exact .inl (hle.trans_lt (not_le.mp hcovered))
      · have hle : seq ≤ row.seq := hbehind.elim le_of_lt fun heq => heq.1.ge
        by_cases hlt : row.seq < change.seq
        · exact .inl (hle.trans_lt hlt)
        · refine .inr (.inr ⟨row, ?_, hbehind⟩)
          rw [Option.mem_def.mp hrow]
          simp [Row.truncate, hlt]
    · simp only [hhard]
      rcases h with hbound | hstone | ⟨row, hrow, hbehind⟩
      · exact .inl hbound
      · exact .inr (.inl hstone)
      · obtain ⟨time, htime⟩ : ∃ time, layout.time = some time := by
          simpa [Option.isNone_iff_eq_none, ← ne_eq, Option.ne_none_iff_exists'] using hhard
        rw [Option.mem_def.mp hrow]
        refine .inr (.inr ?_)
        have hle : seq ≤ row.seq := hbehind.elim le_of_lt fun heq => heq.1.ge
        by_cases hlt : row.seq < change.seq
        · exact ⟨row.mark layout time change true, by simp [Row.truncate, hlt, htime],
            .inl (hle.trans_lt hlt)⟩
        · exact ⟨row, by simp [Row.truncate, hlt], hbehind⟩

theorem refused_delete (hpast : state.accepts change.seq) (h : state.accepts seq = false) :
    (state.delete layout change).accepts seq = false := by
  have hreached : state.guard.reached change.seq := Guard.reached_iff.mpr (accepts_iff.mp hpast).1
  rw [accepts_eq_false_iff]
  rcases lt_of_refused hpast h with hbound | hlt
  · left
    unfold delete
    split <;> exact hbound
  · unfold delete
    split
    · -- the tombstone is the delete's own
      exact .inr (.inl ⟨_, Guard.bury_stone hreached change.names, hlt.le⟩)
    · rcases accepts_eq_false_iff.mp h with hbound | hstone | ⟨row, hrow, -⟩
      · exact .inl hbound
      · exact .inr (.inl hstone)
      · exact .inr (.inr ⟨_, Option.mem_map_of_mem _ hrow, .inl hlt⟩)

omit [DecidableEq ι] in
theorem refused_upsert (hpast : state.accepts change.seq) (h : state.accepts seq = false) :
    (state.upsert change).accepts seq = false := by
  rw [accepts_eq_false_iff]
  rcases lt_of_refused hpast h with hbound | hlt
  · exact .inl hbound
  · exact .inr (.inr ⟨_, rfl, .inl hlt⟩)

theorem refused_step (h : state.accepts seq = false) :
    (state.step layout change).accepts seq = false := by
  unfold step
  split
  · exact refused_truncate h
  split
  · exact h
  rename_i haccepts
  have hpast : state.accepts change.seq := by simpa using haccepts
  split
  · exact refused_delete hpast h
  · exact refused_upsert hpast h

/-! ## Steps only move forward -/

theorem exists_bound_step (layout : Layout ι) (change : Change ι V σ P)
    {bound : σ} (hbound : bound ∈ state.guard.bound) :
    ∃ bound' ∈ (state.step layout change).guard.bound, bound ≤ bound' := by
  unfold step
  split
  · unfold truncate
    split
    case isFalse => exact ⟨bound, hbound, le_rfl⟩
    case isTrue hreached =>
      by_cases hhard : layout.time.isNone
      · simp only [hhard, if_true]
        exact ⟨change.seq, Guard.raise_bound hreached, Guard.reached_iff.mp hreached bound hbound⟩
      · simp only [hhard]
        exact ⟨bound, hbound, le_rfl⟩
  split
  · exact ⟨bound, hbound, le_rfl⟩
  split
  · unfold delete
    split <;> exact ⟨bound, hbound, le_rfl⟩
  · exact ⟨bound, hbound, le_rfl⟩

theorem reached_of_step
    (h : (state.step layout change).guard.reached seq) : state.guard.reached seq := by
  rw [Guard.reached_iff] at h ⊢
  intro bound hbound
  obtain ⟨bound', hbound', hle⟩ := exists_bound_step layout change hbound
  exact hle.trans (h bound' hbound')

/-- A step leaves the row of the key, or one at its own sequence. -/
theorem row_step {row : Row ι V σ} (h : row ∈ (state.step layout change).row) :
    row ∈ state.row ∨ row.seq = change.seq := by
  unfold step at h
  split at h
  · unfold truncate at h
    split at h
    case isFalse => exact .inl h
    case isTrue =>
      obtain ⟨held, hheld, htruncate⟩ := Option.bind_eq_some_iff.mp h
      rcases Row.le_of_truncate htruncate with ⟨rfl, -⟩ | ⟨-, heq⟩
      · exact .inl hheld
      · exact .inr heq
  split at h
  · exact .inl h
  split at h
  · unfold delete at h
    split at h
    · cases h
    · obtain ⟨held, -, rfl⟩ := Option.map_eq_some_iff.mp h
      exact .inr rfl
  · cases h
    exact .inr rfl

/-! ## What a state has met -/

/-- Whether the state has met `change`: a truncate left its bound, where it removes outright, and
    no row before it; another change is refused, or is a soft delete of a key that has no row. -/
def Absorbs (layout : Layout ι) (state : State ι V σ P) (change : Change ι V σ P) : Prop :=
  if change.op = .truncate then
    (layout.time = none → ∃ bound ∈ state.guard.bound, change.seq ≤ bound) ∧
      (state.guard.reached change.seq → ∀ row ∈ state.row, change.seq ≤ row.seq)
  else
    state.accepts change.seq = false ∨
      (layout.time ≠ none ∧ change.op = .delete ∧ state.row = none)

/-- What a state has met does nothing to it. -/
theorem step_of_absorbs (h : state.Absorbs layout change) : state.step layout change = state := by
  unfold Absorbs at h
  unfold step
  split at h
  case isTrue htruncate =>
    rw [if_pos htruncate, truncate]
    split
    case isFalse => rfl
    case isTrue hreached =>
      have hrow : state.row.bind (Row.truncate layout change) = state.row := by
        cases hheld : state.row with
        | none => rfl
        | some row => simp [Row.truncate, not_lt.mpr (h.2 hreached row hheld)]
      have hguard : (if layout.time.isNone then state.guard.raise change.seq else state.guard)
          = state.guard := by
        split
        case isFalse => rfl
        case isTrue hhard =>
          obtain ⟨bound, hbound, hle⟩ := h.1 (by simpa using hhard)
          exact Guard.raise_of_le hbound hle
      rw [hrow, hguard]
  case isFalse htruncate =>
    rw [if_neg htruncate]
    rcases h with hrefused | ⟨hsoft, hdelete, hnone⟩
    · simp [hrefused]
    · split
      · rfl
      · obtain ⟨time, htime⟩ := Option.ne_none_iff_exists'.mp hsoft
        simp only [delete, htime, hnone, Option.map_none]
        rw [← hnone]

theorem absorbs_step (layout : Layout ι) (state : State ι V σ P) (change : Change ι V σ P) :
    (state.step layout change).Absorbs layout change := by
  by_cases htruncate : change.op = .truncate
  · rw [Absorbs, if_pos htruncate, step, if_pos htruncate, truncate]
    split
    case isFalse hreached =>
      obtain ⟨bound, hbound, hlt⟩ : ∃ bound ∈ state.guard.bound, change.seq < bound := by
        simpa [Guard.reached_iff] using hreached
      exact ⟨fun _ => ⟨bound, hbound, hlt.le⟩, fun h => absurd h hreached⟩
    case isTrue hreached =>
      refine ⟨fun hhard => ⟨change.seq, ?_, le_rfl⟩, fun _ row' hrow' => ?_⟩
      · simp only [hhard, Option.isNone_none, if_true]
        exact Guard.raise_bound hreached
      · obtain ⟨row, -, htruncated⟩ := Option.bind_eq_some_iff.mp hrow'
        rcases Row.le_of_truncate htruncated with ⟨rfl, hle⟩ | ⟨-, heq⟩
        · exact hle
        · exact heq.ge
  · rw [Absorbs, if_neg htruncate, step, if_neg htruncate]
    by_cases hrefused : state.accepts change.seq = false
    · simp [hrefused]
    have hpast : state.accepts change.seq := by simpa using hrefused
    rw [if_neg (by simp [hpast])]
    by_cases hdelete : change.op = .delete
    · rw [if_pos hdelete, delete]
      split
      · have hreached := Guard.reached_iff.mpr (accepts_iff.mp hpast).1
        exact .inl (accepts_eq_false_iff.mpr
          (.inr (.inl ⟨_, Guard.bury_stone hreached change.names, le_rfl⟩)))
      · rename_i time htime
        cases hrow : state.row with
        | none => exact .inr ⟨by simp [htime], hdelete, rfl⟩
        | some row => exact .inl (accepts_eq_false_iff.mpr (.inr (.inr ⟨_, rfl, .inr ⟨rfl, rfl⟩⟩)))
    · rw [if_neg hdelete]
      exact .inl (accepts_eq_false_iff.mpr (.inr (.inr ⟨_, rfl, .inr ⟨rfl, rfl⟩⟩)))

theorem row_step_eq_none
    (hnone : state.row = none) (hop : change.op = .truncate ∨ change.op = .delete) :
    (state.step layout change).row = none := by
  rcases hop with hop | hop
  · rw [step, if_pos hop, truncate]
    split <;> simp [hnone]
  · rw [step, if_neg (by simp [hop])]
    split
    · exact hnone
    rw [delete]
    split <;> simp [hnone]

/-- What a state has met it has met after any later change. -/
theorem absorbs_of_le {later : Change ι V σ P} (h : state.Absorbs layout change)
    (hle : change.seq ≤ later.seq) : (state.step layout later).Absorbs layout change := by
  unfold Absorbs at h ⊢
  split at h
  · rename_i htruncate
    rw [if_pos htruncate]
    refine ⟨fun hhard => ?_, fun hreached => ?_⟩
    · obtain ⟨bound, hbound, hle⟩ := h.1 hhard
      obtain ⟨bound', hbound', hle'⟩ := exists_bound_step layout later hbound
      exact ⟨bound', hbound', hle.trans hle'⟩
    · intro row hrow
      rcases row_step hrow with hheld | heq
      · exact h.2 (reached_of_step hreached) row hheld
      · exact heq ▸ hle
  · rename_i htruncate
    rw [if_neg htruncate]
    rcases h with hrefused | ⟨hsoft, hdelete, hnone⟩
    · exact .inl (refused_step hrefused)
    · by_cases hop : later.op = .truncate ∨ later.op = .delete
      · exact .inr ⟨hsoft, hdelete, row_step_eq_none hnone hop⟩
      · -- an insert or update gives the key a row at its own sequence, or is refused
        obtain ⟨hnot, hnot'⟩ := not_or.mp hop
        by_cases hrefused : state.accepts later.seq = false
        · refine .inr ⟨hsoft, hdelete, ?_⟩
          simp [step, hnot, hrefused, hnone]
        · left
          have hpast : state.accepts later.seq := by simpa using hrefused
          rw [step, if_neg hnot, if_neg (by simp [hpast]), if_neg hnot', accepts_eq_false_iff]
          refine .inr (.inr ⟨_, rfl, ?_⟩)
          rcases hle.lt_or_eq with hlt | heq
          · exact .inl hlt
          · exact .inr ⟨heq.symm, rfl⟩

omit [DecidableEq ι] in
/-- What a state has met it has met once stored. -/
theorem absorbs_stored (h : state.Absorbs layout change) : state.stored.Absorbs layout change := by
  unfold Absorbs at h ⊢
  split at h
  · rename_i htruncate
    rw [if_pos htruncate]
    refine ⟨h.1, fun hreached row' hrow' => ?_⟩
    obtain ⟨row, hrow, rfl⟩ := Option.map_eq_some_iff.mp hrow'
    exact h.2 hreached row hrow
  · rename_i htruncate
    rw [if_neg htruncate]
    rcases h with hrefused | ⟨hsoft, hdelete, hnone⟩
    · left
      rw [accepts_eq_false_iff] at hrefused ⊢
      rcases hrefused with hbound | hstone | ⟨row, hrow, hbehind⟩
      · exact .inl hbound
      · exact .inr (.inl hstone)
      · refine .inr (.inr ⟨_, Option.mem_map_of_mem _ hrow, ?_⟩)
        rcases hbehind with hlt | ⟨heq, -⟩
        · exact .inl hlt
        · exact .inr ⟨heq, rfl⟩
    · exact .inr ⟨hsoft, hdelete, by simp [stored, hnone]⟩

/-! ## Replays -/

/-- A run in sequence order meets every change of it. -/
theorem absorbs_run
    (hsorted : changes.Pairwise fun left right => left.seq ≤ right.seq) (state : State ι V σ P) :
    ∀ change ∈ changes, (state.run layout changes).Absorbs layout change :=
  Lib.foldl_met (I := fun _ => True) (fun _ _ _ => trivial)
    (fun state change _ => absorbs_step layout state change)
    (fun _ _ _ _ hmet hle => absorbs_of_le hmet hle) hsorted trivial

omit [DecidableEq ι] in
@[simp] theorem stored_stored (state : State ι V σ P) : state.stored.stored = state.stored := by
  cases hrow : state.row <;> simp [stored, hrow]

omit [DecidableEq ι] in
theorem pairwise_le_insertionSort (changes : List (Change ι V σ P)) :
    (changes.insertionSort Change.before).Pairwise fun left right => left.seq ≤ right.seq :=
  (List.pairwise_insertionSort Change.before changes).imp fun h => Change.le_of_before h

theorem merge_replay (layout : Layout ι) (state : State ι V σ P)
    {again : List (Change ι V σ P)} (hagain : ∀ change ∈ again, change ∈ changes) :
    (state.merge layout changes).merge layout again = state.merge layout changes := by
  have habsorbs : ∀ change ∈ again.insertionSort Change.before,
      (state.merge layout changes).Absorbs layout change := by
    intro change hchange
    have hmem := hagain change ((List.mem_insertionSort Change.before).mp hchange)
    exact absorbs_stored (absorbs_run (pairwise_le_insertionSort changes) state change
      ((List.mem_insertionSort Change.before).mpr hmem))
  have hrun : (state.merge layout changes).run layout (again.insertionSort Change.before)
      = state.merge layout changes :=
    Lib.foldl_of_fixed fun change hchange => step_of_absorbs (habsorbs change hchange)
  conv_lhs => rw [merge, hrun]
  rw [merge, stored_stored]

/-! ## Where a commit falls -/

/-- Whether a change at `seq` does not tell the state from the state stored: it is past the
    sequence a truncate gave the row. -/
def Settled (state : State ι V σ P) (seq : σ) : Prop :=
  ∀ row ∈ state.row, row.truncated → row.seq < seq

/-- A change past what truncates gave the row does to a state and to the state stored the same, or
    nothing to either. -/
theorem step_stored_of_settled (layout : Layout ι) (hsettled : state.Settled change.seq) :
    state.step layout change = state.stored.step layout change ∨
      (state.step layout change = state ∧ state.stored.step layout change = state.stored) := by
  obtain ⟨row, guard⟩ := state
  cases row with
  | none => exact .inl rfl
  | some row =>
    obtain ⟨cells, seq, truncated⟩ := row
    cases truncated with
    | false => exact .inl rfl
    | true =>
      have hlt : seq < change.seq := hsettled _ rfl rfl
      by_cases htruncate : change.op = .truncate
      · by_cases hreached : guard.reached change.seq
        · left
          simp [step, htruncate, truncate, stored, hreached, Row.truncate, hlt, Row.mark]
        · right
          simp [step, htruncate, truncate, stored, hreached]
      · by_cases hadmits : guard.admits change.seq
        · left
          have hnot : ¬ change.seq < seq := hlt.not_gt
          by_cases hdelete : change.op = .delete
          · cases htime : layout.time <;>
              simp [step, hdelete, accepts, stored, hadmits, Row.behind, hnot, hlt.ne,
                delete, htime, Row.mark]
          · simp [step, htruncate, hdelete, accepts, stored, hadmits, Row.behind, hnot, hlt.ne,
              upsert, Row.updated]
        · right
          simp [step, htruncate, accepts, stored, hadmits]

theorem run_stored_of_settled (hsettled : ∀ change ∈ changes, state.Settled change.seq) :
    (state.stored.run layout changes).stored = (state.run layout changes).stored := by
  induction changes with
  | nil => exact stored_stored state
  | cons first rest ih =>
    rw [run, run, List.foldl_cons, List.foldl_cons]
    rcases step_stored_of_settled layout (hsettled first List.mem_cons_self) with
      hsame | ⟨hleft, hright⟩
    · rw [hsame]
    · rw [hleft, hright]
      exact ih fun change hchange => hsettled change (List.mem_cons_of_mem _ hchange)

theorem settled_step (h : state.Settled seq) (hlt : change.seq < seq) :
    (state.step layout change).Settled seq := by
  intro row hrow htruncated
  rcases row_step hrow with hheld | heq
  · exact h row hheld htruncated
  · exact heq ▸ hlt

theorem settled_run (h : state.Settled seq) (hlt : ∀ change ∈ changes, change.seq < seq) :
    (state.run layout changes).Settled seq :=
  List.foldlRecOn (motive := (Settled · seq)) _ _ h fun _ h change hchange =>
    settled_step h (hlt change hchange)

theorem merge_merge_of_lt (layout : Layout ι)
    (hstored : state.stored = state) {later : List (Change ι V σ P)}
    (hlt : ∀ change ∈ changes, ∀ other ∈ later, change.seq < other.seq) :
    (state.merge layout changes).merge layout later = state.merge layout (changes ++ later) := by
  have hsort : (changes ++ later).insertionSort Change.before
      = changes.insertionSort Change.before ++ later.insertionSort Change.before :=
    Lib.insertionSort_append_of_le changes later fun change hchange other hother =>
      .inl (hlt change hchange other hother)
  have hstart : ∀ seq, state.Settled seq := by
    intro seq row hrow htruncated
    rw [← hstored] at hrow
    obtain ⟨row, -, rfl⟩ := Option.map_eq_some_iff.mp hrow
    cases htruncated
  rw [merge, merge, merge, hsort]
  refine (run_stored_of_settled fun other hother => ?_).trans
    (congrArg State.stored List.foldl_append.symm)
  refine settled_run (hstart other.seq) fun change hchange => ?_
  exact hlt change ((List.mem_insertionSort Change.before).mp hchange) other
    ((List.mem_insertionSort Change.before).mp hother)

end State

end Rdlt.Merge.Keyed
