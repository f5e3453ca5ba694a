/-
  Rdlt.Merge.Versioned.Laws

  The laws of one key's history in a change stream's table: merging a change
  again does nothing, and where a commit falls between changes does not matter.
-/

import Rdlt.Merge.Versioned.Lives

namespace Rdlt.Merge.Versioned

variable {R σ H P : Type} [LinearOrder σ] {life : Life R σ H}

theorem Change.le_of_before {left right : Change R P} (h : left.before life right) :
    life.seq left.row ≤ life.seq right.row :=
  Prod.Lex.monotone_fst _ _ h

theorem Change.lt_of_before {left right : Change R P} (h : left.before life right)
    (hleft : left.op ≠ .truncate) (hright : right.op = .truncate) :
    life.seq left.row < life.seq right.row := by
  rcases Prod.Lex.le_iff.mp h with hlt | ⟨-, hle⟩
  · exact hlt
  · have hfalse : true ≤ false := by simpa [Change.rank, hleft, hright] using hle
    exact absurd hfalse (by decide)

namespace State

variable {state state' : State R σ P} {row version : R} {seq : σ} {change : Change R P}
  {changes : List (Change R P)}

/-! ## The newest version -/

theorem greatest_congr (hclosed : state'.closed = state.closed)
    (hcurrent : state'.current = state.current) : state'.greatest life = state.greatest life := by
  simp [greatest, versions, hclosed, hcurrent]

theorem greatest_replace (state : State R σ P) (data : Option R) (row : R) :
    (state.replace life data row).greatest life
      = max (state.greatest life) (data.elim ⊥ fun _ => (life.seq row : WithBot σ)) := by
  cases hcurrent : state.current <;> cases data <;>
    simp [greatest, versions, replace, hcurrent, Multiset.sup_add, sup_comm, sup_left_comm]

theorem newest_moved (h : Moved life row state state') :
    state'.newest ≤ max state.newest (life.seq row) := by
  cases h with
  | stay hclosed hcurrent hnewest => exact hnewest.trans_le (le_max_left _ _)
  | replaced data hdata hclosed hcurrent hnewest =>
    rw [hnewest, replace]
    cases data <;> simp

theorem newest_le_moved (h : Moved life row state state')
    (hle : state.newest ≤ life.seq row) : state.newest ≤ state'.newest := by
  cases h with
  | stay hclosed hcurrent hnewest => exact hnewest.ge
  | replaced data hdata hclosed hcurrent hnewest =>
    rw [hnewest, replace]
    cases data with
    | none => exact le_rfl
    | some data => exact hle

theorem current_moved (h : Moved life row state state') (hversion : state'.current = some version) :
    state.current = some version ∨ life.seq version = life.seq row := by
  cases h with
  | stay hclosed hcurrent hnewest => exact .inl (hcurrent ▸ hversion)
  | replaced data hdata hclosed hcurrent hnewest =>
    rw [hcurrent] at hversion
    obtain ⟨data, -, rfl⟩ := Option.map_eq_some_iff.mp hversion
    exact .inr (life.seq_openAt _ _ _)

theorem newest_le_of_past (h : state.past seq) : state.newest ≤ seq := by
  simp only [past, Bool.or_eq_true, decide_eq_true_eq, Bool.and_eq_true] at h
  rcases h with hlt | ⟨heq, -⟩
  · exact hlt.le
  · exact heq.le

/-! ## Versions in sequence -/

/-- Whether the key's newest is the greatest of its versions and its current one, where it has any,
    and a key with a tombstone has none. -/
structure Sequenced (life : Life R σ H) (state : State R σ P) : Prop where
  greatest : state.newest = state.greatest life
  newest : ∀ version ∈ state.current, state.newest = life.seq version
  buried : state.guard.stone.isSome → state.current = none

/-- What moves the key's versions past its newest keeps them in sequence. -/
theorem Sequenced.moved (hsequenced : state.Sequenced life)
    (h : Moved life row state state') (hle : state.newest ≤ life.seq row)
    (hburied : state'.guard.stone.isSome → state'.current = none) : state'.Sequenced life := by
  refine ⟨?_, ?_, hburied⟩
  · cases h with
    | stay hclosed hcurrent hnewest =>
      rw [hnewest, greatest_congr hclosed hcurrent, hsequenced.greatest]
    | replaced data hdata hclosed hcurrent hnewest =>
      rw [hnewest, greatest_congr hclosed hcurrent, greatest_replace, ← hsequenced.greatest,
        replace]
      cases data with
      | none => simp
      | some data => exact (max_eq_right hle).symm
  · cases h with
    | stay hclosed hcurrent hnewest =>
      rw [hcurrent, hnewest]
      exact hsequenced.newest
    | replaced data hdata hclosed hcurrent hnewest =>
      intro version hversion
      rw [hcurrent] at hversion
      obtain ⟨data, rfl, rfl⟩ := Option.map_eq_some_iff.mp hversion
      rw [hnewest, life.seq_openAt]
      rfl

theorem removed_of_current_eq_none (h : state.current = none) (row : R) :
    state.removed life row = state := by
  unfold removed
  rw [h]

theorem cleared_of_current_eq_none (h : state.current = none) (row : R) :
    state.cleared life row = state := by
  simp [cleared, h]

theorem Sequenced.newest_lt_of_any (h : state.Sequenced life)
    (hany : state.current.any fun version => life.seq version < life.seq row) :
    state.newest < life.seq row := by
  cases hcurrent : state.current with
  | none => simp [hcurrent] at hany
  | some version =>
    rw [h.newest version hcurrent]
    exact WithBot.coe_lt_coe.mpr (by simpa [hcurrent] using hany)

theorem accepts_true_iff : state.accepts true seq ↔ state.guard.admits seq ∧ state.past seq := by
  simp [accepts]

theorem stone_of_truncate
    (h : (state.truncate life row).guard.stone.isSome) : state.guard.stone.isSome := by
  unfold State.truncate at h
  split at h
  case isFalse => exact h
  case isTrue hreached =>
    by_cases hhard : life.hard
    · simp only [hhard, if_true, Guard.raise_stone hreached] at h
      exact Option.isSome_of_isSome_filter _ _ h
    · simpa [hhard] using h

theorem Sequenced.truncate (h : state.Sequenced life) (row : R) :
    (state.truncate life row).Sequenced life := by
  by_cases hany : state.current.any fun version => life.seq version < life.seq row
  · refine h.moved (moved_truncate life state row) (h.newest_lt_of_any hany).le fun hstone => ?_
    -- a key with a tombstone has no version the truncate could clear
    simp [h.buried (stone_of_truncate hstone)] at hany
  · have hcleared : state.cleared life row = state := by simp [cleared, hany]
    have hburied : (state.truncate life row).guard.stone.isSome → state.current = none :=
      fun hstone => h.buried (stone_of_truncate hstone)
    unfold State.truncate at hburied ⊢
    rw [hcleared] at hburied ⊢
    split
    · rename_i hreached
      rw [if_pos hreached] at hburied
      exact ⟨h.greatest, h.newest, hburied⟩
    · exact h

theorem Sequenced.delete (h : state.Sequenced life)
    (hle : state.newest ≤ life.seq change.row) : (state.delete life change).Sequenced life := by
  refine h.moved (moved_delete life state change) hle fun hstone => ?_
  by_cases hhard : life.hard
  · unfold State.delete removed
    split
    · assumption
    · simp [hhard, State.replace]
  · have hnone := h.buried (by simpa [State.delete, hhard] using hstone)
    simp [State.delete, removed_of_current_eq_none hnone, hnone]

variable [DecidableEq H]

section

variable (h : state.Sequenced life)
include h

theorem Sequenced.step (change : Change R P) : (state.step life true change).Sequenced life := by
  unfold State.step
  split
  · exact h.truncate change.row
  split
  · exact h
  rename_i haccepts
  obtain ⟨-, hpast⟩ := accepts_true_iff.mp (by simpa using haccepts)
  split
  · exact h.delete (newest_le_of_past hpast)
  · refine h.moved (moved_upsert life state change) (newest_le_of_past hpast) fun hstone => ?_
    simp [State.upsert] at hstone

theorem Sequenced.run
    (changes : List (Change R P)) : (state.run life true changes).Sequenced life :=
  List.foldlRecOn _ _ h fun _ h change _ => h.step change

omit [DecidableEq H] in
theorem Sequenced.stored : (state.stored life).Sequenced life :=
  ⟨rfl, fun version hversion => h.greatest.symm.trans (h.newest version hversion), h.buried⟩

theorem Sequenced.merge
    (changes : List (Change R P)) : (state.merge life true changes).Sequenced life :=
  (h.run _).stored

end

/-! ## Steps only move forward -/

theorem exists_bound_step (life : Life R σ H) (change : Change R P) {bound : σ}
    (hbound : bound ∈ state.guard.bound) :
    ∃ bound' ∈ (state.step life true change).guard.bound, bound ≤ bound' := by
  unfold step
  split
  · unfold truncate
    split
    case isFalse => exact ⟨bound, hbound, le_rfl⟩
    case isTrue hreached =>
      by_cases hhard : life.hard
      · simp only [hhard, if_true]
        exact ⟨_, Guard.raise_bound hreached, Guard.reached_iff.mp hreached bound hbound⟩
      · simp only [hhard]
        exact ⟨bound, hbound, le_rfl⟩
  split
  · exact ⟨bound, hbound, le_rfl⟩
  split
  · refine ⟨bound, ?_, le_rfl⟩
    unfold delete
    split <;> exact hbound
  · exact ⟨bound, hbound, le_rfl⟩

theorem newest_le_step (hsequenced : state.Sequenced life)
    (change : Change R P) : state.newest ≤ (state.step life true change).newest := by
  unfold step
  split
  · by_cases hany : state.current.any fun version => life.seq version < life.seq change.row
    · exact newest_le_moved (moved_truncate life state change.row)
        (hsequenced.newest_lt_of_any hany).le
    · simp only [truncate, cleared, hany, Bool.false_eq_true, if_false]
      split <;> exact le_rfl
  split
  · exact le_rfl
  rename_i haccepts
  obtain ⟨-, hpast⟩ := accepts_true_iff.mp (by simpa using haccepts)
  split
  · exact newest_le_moved (moved_delete life state change) (newest_le_of_past hpast)
  · exact newest_le_moved (moved_upsert life state change) (newest_le_of_past hpast)

theorem reached_of_step
    (h : (state.step life true change).guard.reached seq) : state.guard.reached seq := by
  rw [Guard.reached_iff] at h ⊢
  intro bound hbound
  obtain ⟨bound', hbound', hle⟩ := exists_bound_step life change hbound
  exact hle.trans (h bound' hbound')

/-! ## What a state has met -/

/-- Whether an insert, update or delete finds nothing to do: a soft delete no version that is not
    deleted, an upsert a version alike. -/
def Idle (life : Life R σ H) (state : State R σ P) (change : Change R P) : Prop :=
  if change.op = .delete then life.hard = false ∧ ∀ version ∈ state.current, life.deleted version
  else state.guard.stone = none ∧ state.alike life change.row

/-- Whether the state has met `change`: a truncate left its bound, where it removes outright, and no
    live version before it; another change is behind the guard or the newest version, or finds
    nothing to do. -/
def Absorbs (life : Life R σ H) (state : State R σ P) (change : Change R P) : Prop :=
  if change.op = .truncate then
    (life.hard → ∃ bound ∈ state.guard.bound, life.seq change.row ≤ bound) ∧
      (state.guard.reached (life.seq change.row) → ∀ version ∈ state.current,
        life.seq change.row ≤ life.seq version ∨ (life.hard = false ∧ life.deleted version))
  else
    ¬ state.guard.admits (life.seq change.row) ∨ life.seq change.row ≤ state.newest ∨
      state.Idle life change

omit [DecidableEq H] in
theorem removed_of_deleted (hsoft : life.hard = false)
    (h : ∀ version ∈ state.current, life.deleted version) (row : R) :
    state.removed life row = state := by
  unfold removed
  split
  · rfl
  · rename_i version hcurrent
    simp [hsoft, h version hcurrent]

omit [DecidableEq H] in
theorem stored_eq_iff : state.stored life = state'.stored life ↔
    state.closed = state'.closed ∧ state.current = state'.current ∧ state.guard = state'.guard := by
  constructor
  · intro h
    exact ⟨(State.ext_iff.mp h).1, (State.ext_iff.mp h).2.1, (State.ext_iff.mp h).2.2.2.2⟩
  · rintro ⟨hclosed, hcurrent, hguard⟩
    exact State.ext hclosed hcurrent (greatest_congr hclosed hcurrent) rfl hguard

omit [DecidableEq H] in
/-- A truncate that was met clears nothing. -/
theorem cleared_of_met (h : ∀ version ∈ state.current,
      life.seq row ≤ life.seq version ∨ (life.hard = false ∧ life.deleted version)) :
    (state.cleared life row).stored life = state.stored life := by
  unfold cleared
  split
  case isFalse => rfl
  case isTrue hany =>
    cases hcurrent : state.current with
    | none => simp [hcurrent] at hany
    | some version =>
      have hlt : life.seq version < life.seq row := by simpa [hcurrent] using hany
      rcases h version hcurrent with hle | ⟨hsoft, hdeleted⟩
      · exact absurd hle hlt.not_ge
      · have hstay : state.removed life row = state :=
          removed_of_deleted hsoft (fun held hheld => by
            rw [hcurrent] at hheld
            cases hheld
            exact hdeleted) row
        rw [hstay]
        rfl

/-- What a state has met leaves of it what is stored as it is, where it is past what a truncate
    was the last to act on. -/
theorem stored_step_of_absorbs (hsequenced : state.Sequenced life) (h : state.Absorbs life change)
    (hsettled : state.truncated → state.newest < life.seq change.row) :
    (state.step life true change).stored life = state.stored life ∧
      ((state.step life true change).truncated → state.newest < life.seq change.row) := by
  unfold Absorbs at h
  unfold step
  split at h
  case isTrue htruncate =>
    rw [if_pos htruncate, truncate]
    split
    case isFalse => exact ⟨rfl, hsettled⟩
    case isTrue hreached =>
      have hcleared := cleared_of_met (h.2 hreached)
      have hguard : (if life.hard then state.guard.raise (life.seq change.row) else state.guard)
          = state.guard := by
        split
        case isFalse => rfl
        case isTrue hhard =>
          obtain ⟨bound, hbound, hle⟩ := h.1 hhard
          exact Guard.raise_of_le hbound hle
      refine ⟨?_, fun htruncated => ?_⟩
      · rw [hguard]
        obtain ⟨hclosed, hcurrent, -⟩ := stored_eq_iff.mp hcleared
        exact stored_eq_iff.mpr ⟨hclosed, hcurrent, rfl⟩
      · by_cases hany :
            state.current.any fun version => life.seq version < life.seq change.row
        · exact hsequenced.newest_lt_of_any hany
        · simp only [cleared, hany] at htruncated
          exact hsettled htruncated
  case isFalse htruncate =>
    rw [if_neg htruncate]
    split
    case isTrue => exact ⟨rfl, hsettled⟩
    case isFalse haccepts =>
      obtain ⟨hadmits, hpast⟩ := accepts_true_iff.mp (by simpa using haccepts)
      have hlt : state.newest < life.seq change.row := by
        simp only [past, Bool.or_eq_true, decide_eq_true_eq, Bool.and_eq_true] at hpast
        rcases hpast with hlt | ⟨-, htruncated⟩
        · exact hlt
        · exact hsettled htruncated
      rcases h with hnot | hle | hidle
      · exact absurd hadmits hnot
      · exact absurd hle hlt.not_ge
      · unfold Idle at hidle
        split at hidle
        · rename_i hdelete
          rw [if_pos hdelete, delete, removed_of_deleted hidle.1 hidle.2, hidle.1]
          exact ⟨rfl, fun _ => hlt⟩
        · rename_i hdelete
          have hlift : state.guard.lift = state.guard := by
            rw [Guard.lift, ← hidle.1, Guard.of_self]
          rw [if_neg hdelete, upsert, upserted, if_pos hidle.2, hlift]
          exact ⟨rfl, fun _ => hlt⟩

omit [DecidableEq H] in
theorem not_admits_iff : ¬ state.guard.admits seq ↔
      (∃ bound ∈ state.guard.bound, seq < bound) ∨ ∃ held ∈ state.guard.stone, seq ≤ held.1 := by
  rw [Guard.admits_iff, not_and_or]
  simp

omit [DecidableEq H] in
theorem le_newest_replace (state : State R σ P) (data row : R) :
    (life.seq row : WithBot σ) ≤ (state.replace life (some data) row).newest :=
  le_rfl

omit [DecidableEq H] in
theorem not_admits_delete (hhard : life.hard) (hadmits : state.guard.admits (life.seq change.row))
    (hle : seq ≤ life.seq change.row) : ¬ (state.delete life change).guard.admits seq := by
  have hreached := Guard.reached_of_admits hadmits
  refine not_admits_iff.mpr (.inr ⟨(life.seq change.row, change.names), ?_, hle⟩)
  simp only [delete, hhard, if_true]
  exact Guard.bury_stone hreached change.names

omit [DecidableEq H] in
theorem newest_removed (hsoft : life.hard = false)
    (hcurrent : state.current = some version) (hlive : life.deleted version = false) (row : R) :
    (life.seq row : WithBot σ) ≤ (state.removed life row).newest := by
  simp only [removed, hcurrent, hsoft, hlive]
  exact le_newest_replace state version row

theorem absorbs_truncate (state : State R σ P) (hop : change.op = .truncate) :
    (state.step life true change).Absorbs life change := by
  rw [Absorbs, if_pos hop, step, if_pos hop, truncate]
  split
  case isFalse hreached =>
    obtain ⟨bound, hbound, hlt⟩ : ∃ bound ∈ state.guard.bound, life.seq change.row < bound := by
      simpa [Guard.reached_iff] using hreached
    exact ⟨fun _ => ⟨bound, hbound, hlt.le⟩, fun h => absurd h hreached⟩
  case isTrue hreached =>
    refine ⟨fun hhard => ⟨life.seq change.row, ?_, le_rfl⟩, fun _ version hversion => ?_⟩
    · simp only [hhard, if_true]
      exact Guard.raise_bound hreached
    · by_cases hany : state.current.any fun version => life.seq version < life.seq change.row
      · -- what is left of the version it cleared is its own, or was deleted
        simp only [cleared, hany, if_true] at hversion
        rcases current_moved (moved_removed life state change.row) hversion with hheld | heq
        · right
          by_cases hhard : life.hard
          · simp [removed, hheld, hhard, replace] at hversion
          · refine ⟨by simpa using hhard, ?_⟩
            by_contra hlive
            have hopened :
                life.openAt (state.begun life change.row) version change.row = version := by
              simpa [removed, hheld, hhard, hlive, replace] using hversion
            have hseq := life.seq_openAt (state.begun life change.row) version change.row
            rw [hopened] at hseq
            simp [hheld, hseq] at hany
        · exact .inl heq.ge
      · simp only [cleared, hany] at hversion
        left
        by_contra hlt
        have hversion' : state.current = some version := hversion
        exact hany (by simpa [hversion'] using hlt)

theorem absorbs_step (state : State R σ P) (change : Change R P) :
    (state.step life true change).Absorbs life change := by
  by_cases hop : change.op = .truncate
  · exact absorbs_truncate state hop
  rw [Absorbs, if_neg hop, step, if_neg hop]
  split
  case isTrue hrefused =>
    by_cases hadmits : state.guard.admits (life.seq change.row)
    · have hpast : ¬ state.past (life.seq change.row) := fun hpast => by
        simp [accepts_true_iff.mpr ⟨hadmits, hpast⟩] at hrefused
      refine .inr (.inl (not_lt.mp fun hlt => hpast ?_))
      simp [past, hlt]
    · exact .inl hadmits
  case isFalse haccepts =>
    obtain ⟨hadmits, -⟩ := accepts_true_iff.mp (by simpa using haccepts)
    by_cases hdelete : change.op = .delete
    · rw [if_pos hdelete]
      by_cases hhard : life.hard
      · exact .inl (not_admits_delete hhard hadmits le_rfl)
      · have hsoft : life.hard = false := by simpa using hhard
        by_cases hlive : ∃ version, state.current = some version ∧ life.deleted version = false
        · obtain ⟨version, hcurrent, hlive⟩ := hlive
          exact .inr (.inl (newest_removed hsoft hcurrent hlive change.row))
        · have hdeleted : ∀ version ∈ state.current, life.deleted version := by
            intro version hversion
            by_contra hnot
            exact hlive ⟨version, hversion, by simpa using hnot⟩
          refine .inr (.inr ?_)
          rw [Idle, if_pos hdelete, delete, removed_of_deleted hsoft hdeleted]
          exact ⟨hsoft, hdeleted⟩
    · rw [if_neg hdelete, upsert, upserted]
      split
      case isTrue halike =>
        refine .inr (.inr ?_)
        rw [Idle, if_neg hdelete]
        exact ⟨rfl, halike⟩
      case isFalse => exact .inr (.inl (le_newest_replace state change.row _))

/-- A change behind a key's tombstone is behind it, the bound that covers it, or what lifted it,
    after any step. -/
theorem refused_of_stone (hsequenced : state.Sequenced life)
    (change : Change R P) {held : σ × P} (hheld : held ∈ state.guard.stone) (hle : seq ≤ held.1) :
    ¬ (state.step life true change).guard.admits seq ∨
      (seq : WithBot σ) ≤ (state.step life true change).newest := by
  have hsame : ¬ state.guard.admits seq := not_admits_iff.mpr (.inr ⟨held, hheld, hle⟩)
  unfold step
  split
  · unfold truncate
    split
    case isFalse => exact .inl hsame
    case isTrue hreached =>
      left
      by_cases hhard : life.hard
      · simp only [hhard, if_true]
        rw [Guard.admits_iff, Guard.raise_bound hreached, Guard.raise_stone hreached]
        rintro ⟨hbound, hstone⟩
        by_cases hcovered : life.seq change.row ≤ held.1
        · have hkept := hstone held (Option.mem_filter_iff.mpr ⟨hheld, by simpa using hcovered⟩)
          exact absurd hle hkept.not_ge
        · exact absurd (hbound _ rfl) (not_le.mpr (hle.trans_lt (not_le.mp hcovered)))
      · simpa only [hhard, Bool.false_eq_true, if_false] using hsame
  split
  · exact .inl hsame
  rename_i haccepts
  obtain ⟨hadmits, -⟩ := accepts_true_iff.mp (by simpa using haccepts)
  have hlt : held.1 < life.seq change.row := (Guard.admits_iff.mp hadmits).2 held hheld
  split
  · by_cases hhard : life.hard
    · exact .inl (not_admits_delete hhard hadmits (hle.trans hlt.le))
    · exact .inl (by simpa only [delete, hhard, Bool.false_eq_true, if_false] using hsame)
  · -- a key with a tombstone has no version an upsert could find alike
    right
    have hnone : state.current = none := hsequenced.buried (Option.isSome_iff_exists.mpr ⟨_, hheld⟩)
    have halike : state.alike life change.row = false := by simp [alike, hnone]
    have hopened : (life.seq change.row : WithBot σ) ≤ _ :=
      le_newest_replace state change.row change.row
    simp only [upsert, upserted, halike]
    exact (WithBot.coe_le_coe.mpr (hle.trans hlt.le)).trans hopened

/-- An insert, update or delete that finds nothing to do finds nothing, or is behind, after any
    change that applies no earlier. -/
theorem absorbs_of_idle {later : Change R P}
    (h : state.Idle life change) (hop : change.op ≠ .truncate)
    (hbefore : change.before life later) : (state.step life true later).Absorbs life change := by
  have hle := Change.le_of_before hbefore
  have hle' : (life.seq change.row : WithBot σ) ≤ life.seq later.row := WithBot.coe_le_coe.mpr hle
  rw [Absorbs, if_neg hop]
  unfold step
  by_cases hdelete : change.op = .delete
  · -- a soft delete: only an upsert gives the key a version that is not deleted
    rw [Idle, if_pos hdelete] at h
    obtain ⟨hsoft, hdeleted⟩ := h
    have hidle : ∀ {state' : State R σ P}, state'.current = state.current →
        state'.Idle life change := by
      intro state' hcurrent
      rw [Idle, if_pos hdelete, hcurrent]
      exact ⟨hsoft, hdeleted⟩
    have hstay := removed_of_deleted hsoft hdeleted later.row
    split
    · refine .inr (.inr (hidle ?_))
      unfold truncate cleared
      split
      · split
        · simp only [hstay]
        · rfl
      · rfl
    split
    · exact .inr (.inr (hidle rfl))
    split
    · refine .inr (.inr (hidle ?_))
      simp only [delete, hstay]
    · rw [upsert, upserted]
      split
      · exact .inr (.inr (hidle rfl))
      · exact .inr (.inl (hle'.trans (le_newest_replace state later.row _)))
  · rw [Idle, if_neg hdelete] at h
    obtain ⟨hstone, halike⟩ := h
    obtain ⟨version, hcurrent, hlive, -⟩ : ∃ version, state.current = some version ∧
        life.deleted version = false ∧ life.hash version = life.hash change.row := by
      simpa [alike, Option.any_eq_true] using halike
    have hidle : ∀ {state' : State R σ P}, state'.current = state.current →
        state'.guard.stone = none → state'.Idle life change := by
      intro state' hcurrent hstone
      rw [Idle, if_neg hdelete, alike, hcurrent]
      exact ⟨hstone, halike⟩
    split
    · rename_i htruncate
      have hlt := Change.lt_of_before hbefore hop htruncate
      unfold truncate
      split
      case isFalse => exact .inr (.inr (hidle rfl hstone))
      case isTrue hreached =>
        by_cases hhard : life.hard
        · left
          simp only [hhard, if_true]
          refine fun hadmits => absurd ((Guard.admits_iff.mp hadmits).1 _ ?_) hlt.not_ge
          exact Guard.raise_bound hreached
        · have hsoft : life.hard = false := by simpa using hhard
          right
          unfold cleared
          split
          · exact .inl (hle'.trans (newest_removed hsoft hcurrent hlive later.row))
          · exact .inr (hidle rfl (by simpa [hsoft] using hstone))
    split
    · exact .inr (.inr (hidle rfl hstone))
    rename_i haccepts
    obtain ⟨hadmits, -⟩ := accepts_true_iff.mp (by simpa using haccepts)
    split
    · by_cases hhard : life.hard
      · exact .inl (not_admits_delete hhard hadmits hle)
      · have hsoft : life.hard = false := by simpa using hhard
        exact .inr (.inl (hle'.trans (newest_removed hsoft hcurrent hlive later.row)))
    · rw [upsert, upserted]
      split
      · exact .inr (.inr (hidle rfl rfl))
      · exact .inr (.inl (hle'.trans (le_newest_replace state later.row _)))

/-- What a state has met it has met after any change that applies no earlier. -/
theorem absorbs_of_before (hsequenced : state.Sequenced life)
    {later : Change R P} (h : state.Absorbs life change)
    (hbefore : change.before life later) : (state.step life true later).Absorbs life change := by
  by_cases hop : change.op = .truncate
  · rw [Absorbs, if_pos hop] at h ⊢
    refine ⟨fun hhard => ?_, fun hreached version hversion => ?_⟩
    · obtain ⟨bound, hbound, hle⟩ := h.1 hhard
      obtain ⟨bound', hbound', hle'⟩ := exists_bound_step life later hbound
      exact ⟨bound', hbound', hle.trans hle'⟩
    · rcases current_moved (moved_step life true state later) hversion with hheld | heq
      · exact h.2 (reached_of_step hreached) version hheld
      · exact .inl (heq ▸ Change.le_of_before hbefore)
  · rw [Absorbs, if_neg hop] at h
    rcases h with hnot | hle | hidle
    · rw [Absorbs, if_neg hop]
      rcases not_admits_iff.mp hnot with ⟨bound, hbound, hlt⟩ | ⟨held, hheld, hle⟩
      · obtain ⟨bound', hbound', hle⟩ := exists_bound_step life later hbound
        exact .inl (not_admits_iff.mpr (.inl ⟨bound', hbound', hlt.trans_le hle⟩))
      · rcases refused_of_stone hsequenced later hheld hle with hnot | hle
        · exact .inl hnot
        · exact .inr (.inl hle)
    · rw [Absorbs, if_neg hop]
      exact .inr (.inl (hle.trans (newest_le_step hsequenced later)))
    · exact absorbs_of_idle hidle hop hbefore

/-! ## Replays -/

theorem absorbs_run (hsorted : changes.Pairwise (Change.before life))
    (hsequenced : state.Sequenced life) :
    ∀ change ∈ changes, (state.run life true changes).Absorbs life change :=
  Lib.foldl_met (fun _ change h => h.step change) (fun state change _ => absorbs_step state change)
    (fun _ _ _ h hmet hbefore => absorbs_of_before h hmet hbefore) hsorted hsequenced

theorem stored_run_of_absorbs (hsorted : changes.Pairwise (Change.before life))
    (hsequenced : state.Sequenced life) (h : ∀ change ∈ changes, state.Absorbs life change)
    (hsettled : state.truncated → ∀ change ∈ changes, state.newest < life.seq change.row) :
    (state.run life true changes).stored life = state.stored life := by
  induction changes generalizing state with
  | nil => rfl
  | cons first rest ih =>
    obtain ⟨hfirst, hrest⟩ := List.pairwise_cons.mp hsorted
    obtain ⟨hstored, htruncated⟩ := stored_step_of_absorbs hsequenced (h first List.mem_cons_self)
      fun htruncated => hsettled htruncated first List.mem_cons_self
    obtain ⟨hclosed, hcurrent, hguard⟩ := stored_eq_iff.mp hstored
    have hnewest : (state.step life true first).newest = state.newest := by
      rw [(hsequenced.step first).greatest, hsequenced.greatest, greatest_congr hclosed hcurrent]
    rw [run, List.foldl_cons]
    refine (ih hrest (hsequenced.step first) ?_ ?_).trans hstored
    · intro change hchange
      have hmet := h change (List.mem_cons_of_mem _ hchange)
      simpa only [Absorbs, Idle, alike, hguard, hnewest, hcurrent] using hmet
    · intro hstill change hchange
      rw [hnewest]
      exact (htruncated hstill).trans_le
        (WithBot.coe_le_coe.mpr (Change.le_of_before (hfirst change hchange)))

theorem merge_replay (hsequenced : state.Sequenced life)
    {again : List (Change R P)} (hagain : ∀ change ∈ again, change ∈ changes) :
    (state.merge life true changes).merge life true again = state.merge life true changes := by
  refine (stored_run_of_absorbs (List.pairwise_insertionSort (Change.before life) again)
    (hsequenced.merge changes) (fun change hchange => ?_) fun htruncated => ?_).trans rfl
  · have hmem := hagain change ((List.mem_insertionSort (Change.before life)).mp hchange)
    have hmet := absorbs_run (List.pairwise_insertionSort (Change.before life) changes) hsequenced
      change ((List.mem_insertionSort (Change.before life)).mpr hmem)
    unfold Absorbs at hmet ⊢
    rwa [(hsequenced.run _).greatest] at hmet
  · cases htruncated

/-! ## Where a commit falls -/

section

variable (state) (truncated : Bool)

omit [DecidableEq H] in
theorem removed_truncated (row : R) : ({ state with truncated } : State R σ P).removed life row
      = { state.removed life row with truncated } := by
  obtain ⟨closed, current, held, guard⟩ := state
  cases current with
  | none => rfl
  | some version =>
    simp only [removed]
    split
    · rfl
    · split <;> rfl

theorem upserted_truncated (row : R) : ({ state with truncated } : State R σ P).upserted life row
      = { state.upserted life row with truncated } := by
  have halike :
      ({ state with truncated } : State R σ P).alike life row = state.alike life row := rfl
  unfold upserted
  rw [halike]
  split <;> rfl

/-- A change past the newest of a key leaves the same whether or not a truncate was the last to act
    on it, or leaves its newest as it is. -/
theorem step_truncated (change : Change R P) (hlt : state.newest < life.seq change.row) :
    ({ state with truncated } : State R σ P).step life true change = state.step life true change ∨
      (({ state with truncated } : State R σ P).step life true change).stored life
          = (state.step life true change).stored life ∧
        (({ state with truncated } : State R σ P).step life true change).newest = state.newest ∧
          (state.step life true change).newest = state.newest := by
  unfold step
  split
  · unfold truncate
    split
    case isFalse => exact .inr ⟨rfl, rfl, rfl⟩
    case isTrue =>
      by_cases hany : state.current.any fun version => life.seq version < life.seq change.row
      · left
        simp only [cleared, hany, if_true, removed_truncated]
      · right
        simp only [cleared, hany, Bool.false_eq_true, if_false]
        exact ⟨rfl, trivial, trivial⟩
  have haccepts : ({ state with truncated } : State R σ P).accepts true (life.seq change.row)
      = state.accepts true (life.seq change.row) := by
    simp [accepts, past, hlt]
  rw [haccepts]
  split
  · exact .inr ⟨rfl, rfl, rfl⟩
  left
  split
  · simp only [delete, removed_truncated]
  · simp only [upsert, upserted_truncated]

/-- Runs of changes past the newest of a key leave the same stored whether or not a truncate was the
    last to act on it. -/
theorem stored_run_truncated (hlt : ∀ change ∈ changes, state.newest < life.seq change.row) :
    (({ state with truncated } : State R σ P).run life true changes).stored life
      = (state.run life true changes).stored life := by
  induction changes generalizing state truncated with
  | nil => rfl
  | cons first rest ih =>
    rw [run, run, List.foldl_cons, List.foldl_cons]
    rcases step_truncated state truncated first (hlt first List.mem_cons_self) with
      hsame | ⟨hstored, hleft, hright⟩
    · rw [hsame]
    · obtain ⟨hclosed, hcurrent, hguard⟩ := stored_eq_iff.mp hstored
      have hstep : ({ state with truncated } : State R σ P).step life true first
          = { state.step life true first with
              truncated :=
                (({ state with truncated } : State R σ P).step life true first).truncated } :=
        State.ext hclosed hcurrent (hleft.trans hright.symm) rfl hguard
      rw [hstep]
      refine ih _ _ fun change hchange => ?_
      rw [hright]
      exact hlt change (List.mem_cons_of_mem _ hchange)

end

/-- Whether a change at `seq` does not tell the state from the state stored. -/
def Settled (state : State R σ P) (seq : σ) : Prop :=
  state.truncated → state.newest < seq

theorem settled_step (hsequenced : state.Sequenced life) (h : state.Settled seq)
    (hlt : life.seq change.row < seq) : (state.step life true change).Settled seq := by
  have hseq : (life.seq change.row : WithBot σ) < seq := WithBot.coe_lt_coe.mpr hlt
  intro htruncated
  refine (newest_moved (moved_step life true state change)).trans_lt (max_lt ?_ hseq)
  unfold step at htruncated
  split at htruncated
  · unfold truncate at htruncated
    split at htruncated
    · by_cases hany : state.current.any fun version => life.seq version < life.seq change.row
      · exact (hsequenced.newest_lt_of_any hany).trans hseq
      · simp only [cleared, hany, Bool.false_eq_true, if_false] at htruncated
        exact h htruncated
    · exact h htruncated
  split at htruncated
  · exact h htruncated
  split at htruncated <;> cases htruncated

theorem settled_run (hsequenced : state.Sequenced life) (h : state.Settled seq)
    (hlt : ∀ change ∈ changes, life.seq change.row < seq) :
    (state.run life true changes).Settled seq := by
  refine (List.foldlRecOn (motive := fun state => Sequenced life state ∧ Settled state seq) _ _
    ⟨hsequenced, h⟩ ?_).2
  intro _ h change hchange
  exact ⟨h.1.step change, settled_step h.1 h.2 (hlt change hchange)⟩

/-- Where every change of `later` is past every change of `changes`, merging one and then the other
    is merging both at once. -/
theorem merge_merge_of_lt (hsequenced : state.Sequenced life)
    (hstored : state.truncated = false) {later : List (Change R P)}
    (hlt : ∀ change ∈ changes, ∀ other ∈ later, life.seq change.row < life.seq other.row) :
    (state.merge life true changes).merge life true later
      = state.merge life true (changes ++ later) := by
  have hsort : (changes ++ later).insertionSort (Change.before life)
      = changes.insertionSort (Change.before life) ++ later.insertionSort (Change.before life) :=
    Lib.insertionSort_append_of_le changes later fun change hchange other hother =>
      Prod.Lex.le_iff.mpr (.inl (hlt change hchange other hother))
  simp only [merge]
  rw [hsort, run, run, run, List.foldl_append]
  set after := (changes.insertionSort (Change.before life)).foldl (step life true) state
  have hafter : after.Sequenced life := hsequenced.run _
  have hstored' : after.stored life = { after with truncated := false } :=
    State.ext rfl rfl hafter.greatest.symm rfl rfl
  rw [hstored']
  cases htruncated : after.truncated with
  | false =>
    have hsame : ({ after with truncated := false } : State R σ P) = after :=
      State.ext rfl rfl rfl htruncated.symm rfl
    rw [hsame]
  | true =>
    refine stored_run_truncated after false fun other hother => ?_
    refine settled_run hsequenced (fun h => ?_) (fun change hchange => ?_) htruncated
    · rw [hstored] at h
      cases h
    · exact hlt change ((List.mem_insertionSort (Change.before life)).mp hchange) other
        ((List.mem_insertionSort (Change.before life)).mp hother)

/-! ## Truncates met late -/

omit [DecidableEq H]

/-- The truncates of `rows` clear the key's versions, in the order given. -/
def clearedAll (life : Life R σ H) (state : State R σ P) (rows : List R) : State R σ P :=
  rows.foldl (cleared life) state

theorem clearedAll_of_current_eq_none (h : state.current = none)
    (rows : List R) : state.clearedAll life rows = state :=
  List.foldl_fixed' (cleared_of_current_eq_none h) rows

theorem clearedAll_of_le {rows : List R}
    (h : ∀ row ∈ rows, ∀ version ∈ state.current, life.seq row ≤ life.seq version) :
    state.clearedAll life rows = state := by
  refine Lib.foldl_of_fixed fun row hrow => ?_
  rw [cleared, if_neg]
  rw [Option.any_eq_true]
  rintro ⟨version, hversion, hlt⟩
  exact absurd (h row hrow version hversion) (not_le.mpr (by simpa using hlt))

/-- What a truncate removed or deleted, a later one finds so. -/
theorem clearedAll_of_removed (htruncated : state.truncated = true)
    (h : ∀ version ∈ state.current, life.hard = false ∧ life.deleted version) (rows : List R) :
    state.clearedAll life rows = state := by
  have hstay : ∀ row, state.removed life row = state := by
    intro row
    cases hcurrent : state.current with
    | none => exact removed_of_current_eq_none hcurrent row
    | some version =>
      exact removed_of_deleted (h version hcurrent).1 (fun held hheld => (h held hheld).2) row
  refine List.foldl_fixed' (fun row => ?_) rows
  unfold cleared
  split
  · rw [hstay]
    exact State.ext rfl rfl rfl htruncated.symm rfl
  · rfl

theorem removed_guard (state : State R σ P) (guard : Guard σ P) (row : R) :
    ({ state with guard } : State R σ P).removed life row
      = { state.removed life row with guard } := by
  obtain ⟨closed, current, newest, truncated, held⟩ := state
  cases current with
  | none => rfl
  | some version =>
    simp only [removed]
    split
    · rfl
    · split <;> rfl

theorem cleared_guard (state : State R σ P) (guard : Guard σ P) (row : R) :
    ({ state with guard } : State R σ P).cleared life row
      = { state.cleared life row with guard } := by
  simp only [cleared, removed_guard]
  split <;> rfl

theorem clearedAll_guard (state : State R σ P) (guard : Guard σ P) (rows : List R) :
    ({ state with guard } : State R σ P).clearedAll life rows
      = { state.clearedAll life rows with guard } := by
  exact List.foldl_hom (fun state => ({ state with guard } : State R σ P))
    fun state row => cleared_guard state guard row

/-- The first truncate past the current version does to it what a delete does, and those after find
    it removed or deleted already. -/
theorem clearedAll_of_lt (hcurrent : state.current = some version)
    (before : List R) (hbefore : ∀ row ∈ before, life.seq row ≤ life.seq version)
    (hlt : life.seq version < life.seq row) (htimed : life.hard = false → life.deleted row)
    (after : List R) : state.clearedAll life (before ++ row :: after)
      = { state.removed life row with truncated := true } := by
  have hfirst : state.clearedAll life before = state := by
    refine clearedAll_of_le fun held hheld current hversion => ?_
    rw [hcurrent] at hversion
    cases hversion
    exact hbefore held hheld
  have hany : state.current.any fun version => life.seq version < life.seq row := by
    simp [hcurrent, hlt]
  have hrow : state.cleared life row = { state.removed life row with truncated := true } := by
    rw [cleared, if_pos hany]
  rw [clearedAll] at hfirst
  rw [clearedAll, List.foldl_append, hfirst, List.foldl_cons, hrow]
  refine clearedAll_of_removed rfl (fun held hheld => ?_) after
  have hheld' : (state.removed life row).current = some held := hheld
  by_cases hhard : life.hard
  · simp [removed, hcurrent, hhard, replace] at hheld'
  · have hsoft : life.hard = false := by simpa using hhard
    refine ⟨hsoft, ?_⟩
    by_cases hdeleted : life.deleted version
    · have hsame : held = version := by
        simpa [removed, hcurrent, hsoft, hdeleted, eq_comm] using hheld'
      rw [hsame]
      exact hdeleted
    · have hopened : life.openAt (state.begun life row) version row = held := by
        simpa [removed, hcurrent, hsoft, hdeleted, replace] using hheld'
      rw [← hopened, life.deleted_openAt]
      exact htimed hsoft

end State

end Rdlt.Merge.Versioned
