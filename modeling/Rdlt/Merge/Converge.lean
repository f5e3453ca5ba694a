/-
  Rdlt.Merge.Converge

  A key's table whose deletes are hard, written in whole rows, remembers of all
  its changes two: the greatest of the key and the greatest truncate. So it does
  not depend on how the changes were cut into commits, nor on their order.
-/

import Rdlt.Merge.Laws

namespace Rdlt.Merge.Keyed

variable {ι V σ P : Type} [LinearOrder σ]

/-! ## The greatest changes -/

def greatest (changes : List (Change ι V σ P)) : Option (Change ι V σ P) :=
  (changes.filter fun change => change.op ≠ .truncate).argmax Change.seq

def latestTruncate (changes : List (Change ι V σ P)) : Option σ :=
  ((changes.filter fun change => change.op = .truncate).argmax Change.seq).map Change.seq

/-- What the greatest change `top` and the truncate bound `bound` decide of a key: nothing where
    the truncate is past the change; else the row it writes, or its tombstone. -/
def decided (top : Option (Change ι V σ P)) (bound : Option σ) : State ι V σ P where
  row := top.bind fun change =>
    if change.op ≠ .delete ∧ Guard.leaves bound change.seq then
      some { cells := change.cells, seq := change.seq, truncated := false }
    else none
  guard := Guard.of
    (top.bind fun change => if change.op = .delete then some (change.seq, change.names) else none)
    bound

variable {change : Change ι V σ P}

section

variable (changes : List (Change ι V σ P))

theorem greatest_concat (hkeyed : change.op ≠ .truncate) : greatest (changes ++ [change])
      = (greatest changes).elim (some change) fun top =>
          if top.seq < change.seq then some change else some top := by
  have hfilter : (changes ++ [change]).filter (fun change => change.op ≠ .truncate)
      = changes.filter (fun change => change.op ≠ .truncate) ++ [change] := by
    simp [List.filter_append, hkeyed]
  rw [greatest, hfilter, List.argmax_concat, greatest]
  cases (changes.filter fun change => change.op ≠ .truncate).argmax Change.seq <;> rfl

theorem greatest_concat_truncate (htruncate : change.op = .truncate) :
    greatest (changes ++ [change]) = greatest changes := by
  simp [greatest, List.filter_append, htruncate]

theorem latestTruncate_concat_keyed (hkeyed : change.op ≠ .truncate) :
    latestTruncate (changes ++ [change]) = latestTruncate changes := by
  simp [latestTruncate, List.filter_append, hkeyed]

theorem latestTruncate_concat (htruncate : change.op = .truncate) :
    latestTruncate (changes ++ [change])
      = some ((latestTruncate changes).elim change.seq (max · change.seq)) := by
  have hfilter : (changes ++ [change]).filter (fun change => change.op = .truncate)
      = changes.filter (fun change => change.op = .truncate) ++ [change] := by
    simp [List.filter_append, htruncate]
  rw [latestTruncate, hfilter, List.argmax_concat, latestTruncate]
  cases (changes.filter fun change => change.op = .truncate).argmax Change.seq with
  | none => rfl
  | some last =>
    by_cases hlt : last.seq < change.seq
    · simp [hlt, hlt.le]
    · simp [hlt, not_lt.mp hlt]

end

/-! ## A step keeps what is decided -/

@[simp] theorem decided_bound (top : Option (Change ι V σ P)) (bound : Option σ) :
    (decided top bound).guard.bound = bound := rfl

variable {bound : Option σ}

theorem decided_of_not_leaves (h : Guard.leaves bound change.seq = false) :
    decided (some change) bound = decided none bound := by
  ext1
  · simp [decided, h]
  · refine Guard.ext ?_ rfl
    by_cases hdelete : change.op = .delete <;> simp [decided, h, hdelete]

variable [DecidableEq ι] {layout : Layout ι}

theorem step_of_accepts (hhard : layout.time = none) {state : State ι V σ P}
    (hkeyed : change.op ≠ .truncate) (hwhole : ∀ column, change.kept column = false)
    (haccepts : state.accepts change.seq) :
    state.step layout change = decided (some change) state.guard.bound := by
  have hleaves : Guard.leaves state.guard.bound change.seq :=
    Guard.reached_iff.mpr (State.accepts_iff.mp haccepts).1
  rw [State.step, if_neg hkeyed, if_neg (by simp [haccepts])]
  by_cases hdelete : change.op = .delete
  · rw [if_pos hdelete, State.delete, hhard]
    simp [decided, hdelete, Guard.bury]
  · rw [if_neg hdelete, State.upsert]
    simp [decided, hdelete, hleaves, Guard.lift, Row.updated, hwhole]

omit [DecidableEq ι] in
theorem refused_of_not_leaves {state : State ι V σ P} {seq : σ}
    (h : Guard.leaves state.guard.bound seq = false) : state.accepts seq = false := by
  simp [State.accepts, Guard.admits, Guard.reached, h]

omit [DecidableEq ι] in
theorem accepts_decided_of_lt {top : Change ι V σ P} (hlt : top.seq < change.seq)
    (hleaves : Guard.leaves bound change.seq) :
    (decided (some top) bound).accepts change.seq := by
  refine State.accepts_iff.mpr ⟨Guard.leaves_iff.mp hleaves, ?_, ?_⟩
  · intro held hheld
    obtain ⟨hheld, -⟩ := Option.filter_eq_some_iff.mp hheld
    simp only [Option.bind_some, Option.ite_none_right_eq_some] at hheld
    obtain ⟨-, hheld⟩ := hheld
    cases hheld
    exact hlt
  · intro row hrow
    simp only [decided, Option.bind_some, Option.mem_def, Option.ite_none_right_eq_some] at hrow
    obtain ⟨-, hrow⟩ := hrow
    cases hrow
    exact .inl hlt

omit [DecidableEq ι] in
theorem refused_decided_of_gt {top : Change ι V σ P} (hgt : change.seq < top.seq) :
    (decided (some top) bound).accepts change.seq = false := by
  by_cases hleaves : Guard.leaves bound top.seq
  · rw [State.accepts_eq_false_iff]
    by_cases hdelete : top.op = .delete
    · exact .inr (.inl ⟨(top.seq, top.names), by simp [decided, hdelete, hleaves], hgt.le⟩)
    · exact .inr (.inr ⟨⟨top.cells, top.seq, false⟩, by simp [decided, hdelete, hleaves], .inl hgt⟩)
  · apply refused_of_not_leaves
    cases bound with
    | none => simp at hleaves
    | some bound =>
      have hlt : top.seq < bound := by simpa using hleaves
      simpa using hgt.trans hlt

/-- A change of the key leaves it decided by the greatest. -/
theorem step_decided_keyed (hhard : layout.time = none) (seen : List (Change ι V σ P))
    (hkeyed : change.op ≠ .truncate) (hwhole : ∀ column, change.kept column = false)
    (hties : ∀ other ∈ seen, other.op ≠ .truncate → other.seq ≠ change.seq) (bound : Option σ) :
    (decided (greatest seen) bound).step layout change
      = decided (greatest (seen ++ [change])) bound := by
  have hrefused : ∀ state : State ι V σ P, state.accepts change.seq = false →
      state.step layout change = state := fun state h => by simp [State.step, hkeyed, h]
  rw [greatest_concat seen hkeyed]
  by_cases hleaves : Guard.leaves bound change.seq
  · cases htop : greatest seen with
    | none =>
      refine step_of_accepts hhard hkeyed hwhole ?_
      exact State.accepts_iff.mpr
        ⟨Guard.leaves_iff.mp hleaves, by simp [decided], by simp [decided]⟩
    | some top =>
      have hmem := List.argmax_mem htop
      have hne :=
        hties top (List.mem_of_mem_filter hmem) (by simpa using (List.mem_filter.mp hmem).2)
      rw [Option.elim_some]
      rcases hne.lt_or_gt with hlt | hgt
      · rw [if_pos hlt]
        exact step_of_accepts hhard hkeyed hwhole (accepts_decided_of_lt hlt hleaves)
      · rw [if_neg hgt.not_gt]
        exact hrefused _ (refused_decided_of_gt hgt)
  · -- before the bound the change decides nothing, and neither does one before it
    have hnot : Guard.leaves bound change.seq = false := by simpa using hleaves
    rw [hrefused _ (refused_of_not_leaves hnot)]
    cases htop : greatest seen with
    | none => exact (decided_of_not_leaves hnot).symm
    | some top =>
      rw [Option.elim_some]
      split
      · rename_i hlt
        rw [decided_of_not_leaves hnot]
        apply decided_of_not_leaves
        cases bound with
        | none => simp at hnot
        | some bound =>
          have hbound : change.seq < bound := by simpa using hnot
          simpa using hlt.trans hbound
      · rfl

theorem step_decided_truncate (hhard : layout.time = none) (top : Option (Change ι V σ P))
    (bound : Option σ) (htruncate : change.op = .truncate) :
    (decided top bound).step layout change
      = decided top (some (bound.elim change.seq (max · change.seq))) := by
  rw [State.step, if_pos htruncate, State.truncate]
  split
  case isTrue hreached =>
    have hle : ∀ b ∈ bound, b ≤ change.seq := Guard.leaves_iff.mp hreached
    have hbound : some (bound.elim change.seq (max · change.seq)) = some change.seq := by
      cases bound with
      | none => rfl
      | some b => simp [hle b rfl]
    ext1
    · rw [hbound]
      cases top with
      | none => rfl
      | some top =>
        by_cases hdelete : top.op = .delete
        · simp [decided, hdelete]
        · by_cases hlt : top.seq < change.seq
          · by_cases hleaves : Guard.leaves bound top.seq <;>
              simp [decided, hdelete, hleaves, Row.truncate, hlt, hhard]
          · have hleaves : Guard.leaves bound top.seq := by
              cases bound with
              | none => rfl
              | some b => simpa using (hle b rfl).trans (not_lt.mp hlt)
            simp [decided, hdelete, hleaves, Row.truncate, hlt, not_lt.mp hlt]
    · rw [hhard]
      exact Guard.raise_of _ _ _
  case isFalse hreached =>
    cases bound with
    | none => exact absurd rfl hreached
    | some b =>
      have hlt : change.seq < b := by simpa [Guard.reached] using hreached
      simp [hlt.le]

/-! ## Runs, in whatever order -/

/-- No two changes of the key are at one sequence. -/
def Untied (changes : List (Change ι V σ P)) : Prop :=
  ((changes.filter fun change => change.op ≠ .truncate).map Change.seq).Nodup

variable {changes changes' : List (Change ι V σ P)}

omit [LinearOrder σ] [DecidableEq ι] in
theorem Untied.perm (h : Untied changes) (hperm : changes.Perm changes') : Untied changes' :=
  ((hperm.filter _).map _).nodup_iff.mp h

omit [DecidableEq ι] in
theorem greatest_perm (h : Untied changes) (hperm : changes.Perm changes') :
    greatest changes = greatest changes' := by
  have hfilter := hperm.filter fun change => decide (change.op ≠ .truncate)
  cases htop : greatest changes with
  | none =>
    have hnil := List.argmax_eq_none.mp htop
    rw [hnil] at hfilter
    rw [greatest, hfilter.symm.eq_nil, List.argmax_nil]
  | some top =>
    have hmem := hfilter.mem_iff.mp (List.argmax_mem htop)
    cases htop' : greatest changes' with
    | none =>
      rw [List.argmax_eq_none.mp htop'] at hmem
      cases hmem
    | some top' =>
      have hmem' := hfilter.mem_iff.mpr (List.argmax_mem htop')
      have hle := List.le_of_mem_argmax hmem' htop
      have hle' := List.le_of_mem_argmax hmem htop'
      rw [List.inj_on_of_nodup_map h (List.argmax_mem htop) hmem' (le_antisymm hle' hle)]

omit [DecidableEq ι] in
theorem latestTruncate_perm (hperm : changes.Perm changes') :
    latestTruncate changes = latestTruncate changes' := by
  have hfilter := hperm.filter fun change => decide (change.op = .truncate)
  unfold latestTruncate
  cases hlast : (changes.filter fun change => change.op = .truncate).argmax Change.seq with
  | none =>
    have hnil := List.argmax_eq_none.mp hlast
    rw [hnil] at hfilter
    rw [hfilter.symm.eq_nil, List.argmax_nil]
  | some last =>
    have hmem := hfilter.mem_iff.mp (List.argmax_mem hlast)
    cases hlast' : (changes'.filter fun change => change.op = .truncate).argmax Change.seq with
    | none =>
      rw [List.argmax_eq_none.mp hlast'] at hmem
      cases hmem
    | some last' =>
      have hmem' := hfilter.mem_iff.mpr (List.argmax_mem hlast')
      have hle := List.le_of_mem_argmax hmem' hlast
      have hle' := List.le_of_mem_argmax hmem hlast'
      rw [Option.map_some, Option.map_some, le_antisymm hle' hle]

/-- A run leaves the key decided by the greatest of all it has seen. -/
theorem run_decided (hhard : layout.time = none) (seen changes : List (Change ι V σ P))
    (hwhole : ∀ change ∈ changes, ∀ column, change.kept column = false)
    (hties : Untied (seen ++ changes)) :
    (decided (greatest seen) (latestTruncate seen)).run layout changes
      = decided (greatest (seen ++ changes)) (latestTruncate (seen ++ changes)) := by
  induction changes generalizing seen with
  | nil => simp [State.run]
  | cons first rest ih =>
    have happend : seen ++ first :: rest = (seen ++ [first]) ++ rest := by simp
    have hstep : (decided (greatest seen) (latestTruncate seen)).step layout first
        = decided (greatest (seen ++ [first])) (latestTruncate (seen ++ [first])) := by
      by_cases htruncate : first.op = .truncate
      · rw [step_decided_truncate hhard _ _ htruncate, greatest_concat_truncate seen htruncate,
          latestTruncate_concat seen htruncate]
      · rw [step_decided_keyed hhard seen htruncate (hwhole first List.mem_cons_self),
          latestTruncate_concat_keyed seen htruncate]
        intro other hother hkeyed heq
        rw [Untied, List.filter_append, List.map_append, List.nodup_append] at hties
        refine hties.2.2 other.seq ?_ first.seq ?_ heq
        · exact List.mem_map_of_mem (List.mem_filter.mpr ⟨hother, by simpa using hkeyed⟩)
        · exact List.mem_map_of_mem
            (List.mem_filter.mpr ⟨List.mem_cons_self, by simpa using htruncate⟩)
    rw [State.run, List.foldl_cons, hstep, happend]
    exact ih (seen ++ [first])
      (fun change hchange => hwhole change (List.mem_cons_of_mem _ hchange))
      (happend ▸ hties)

omit [DecidableEq ι] in
@[simp] theorem stored_decided (top : Option (Change ι V σ P)) (bound : Option σ) :
    (decided top bound).stored = decided top bound := by
  ext1
  · cases top with
    | none => rfl
    | some top =>
      simp only [State.stored, decided, Option.bind_some]
      split <;> rfl
  · rfl

/-- Commits, merged one after another from nothing, leave the key decided by the greatest of all
    their changes, however they were cut and whatever their order. -/
theorem mergeAll_decided (hhard : layout.time = none) (seen : List (Change ι V σ P))
    (commits : List (List (Change ι V σ P)))
    (hwhole : ∀ change ∈ commits.flatten, ∀ column, change.kept column = false)
    (hties : Untied (seen ++ commits.flatten)) :
    commits.foldl (State.merge layout) (decided (greatest seen) (latestTruncate seen))
      = decided (greatest (seen ++ commits.flatten))
        (latestTruncate (seen ++ commits.flatten)) := by
  induction commits generalizing seen with
  | nil => simp
  | cons first rest ih =>
    have hsorted := (List.perm_insertionSort Change.before first).append_left seen
    rw [List.flatten_cons, ← List.append_assoc] at hties ⊢
    have hfirst : Untied (seen ++ first) :=
      hties.sublist (((List.sublist_append_left _ _).filter _).map _)
    have hmerge : (decided (greatest seen) (latestTruncate seen)).merge layout first
        = decided (greatest (seen ++ first)) (latestTruncate (seen ++ first)) := by
      rw [State.merge, run_decided hhard seen _ _ (hfirst.perm hsorted.symm), stored_decided,
        greatest_perm (hfirst.perm hsorted.symm) hsorted, latestTruncate_perm hsorted]
      intro change hchange
      exact hwhole change (List.mem_flatten.mpr
        ⟨first, List.mem_cons_self, (List.mem_insertionSort Change.before).mp hchange⟩)
    rw [List.foldl_cons, hmerge]
    exact ih (seen ++ first) (fun change hchange => hwhole change (by
      rw [List.flatten_cons]
      exact List.mem_append_right _ hchange)) hties

end Rdlt.Merge.Keyed
