/-
  Rdlt.Merge.Versioned.Lives

  The lives of a key's versions. Whatever instants changes say, a change that
  acts begins no earlier than anything the key held, so versions never overlap
  and none ends before it begins.
-/

import Rdlt.Merge.Versioned

namespace Rdlt.Merge.Versioned

variable {R σ H P : Type} [LinearOrder σ] [DecidableEq H] {life : Life R σ H} {state' : State R σ P}
  {held : R}

namespace State

variable {state : State R σ P} {row : R}

/-! ## What the versions hold -/

omit [DecidableEq H]

theorem mem_versions : row ∈ state.versions ↔ row ∈ state.closed ∨ state.current = some row := by
  simp [versions]

theorem le_floor (h : row ∈ state.versions) : latest life row ≤ state.floor life :=
  Multiset.le_sup (Multiset.mem_map_of_mem _ h)

theorem floor_le_begun (life : Life R σ H) (state : State R σ P) (row : R) :
    state.floor life ≤ state.begun life row ∧ life.begins row ≤ state.begun life row := by
  unfold begun
  cases state.floor life with
  | bot => simp
  | coe held =>
    have hmax : max (held : WithBot Int) (life.begins row)
        = ((max held (life.begins row) : Int) : WithBot Int) := rfl
    rw [hmax, WithBot.unbotD_coe]
    exact ⟨WithBot.coe_le_coe.mpr (le_max_left _ _), le_max_right _ _⟩

theorem begins_le_begun (life : Life R σ H) (h : held ∈ state.versions) (row : R) :
    life.begins held ≤ state.begun life row := by
  have hle := (le_max_left _ _).trans ((le_floor h).trans (floor_le_begun life state row).1)
  exact WithBot.coe_le_coe.mp hle

theorem ends_le_begun (h : held ∈ state.versions) (row : R) {ended : Int}
    (hended : life.ends held = some ended) : ended ≤ state.begun life row := by
  have hle := (le_max_right _ _).trans ((le_floor h).trans (floor_le_begun life state row).1)
  rw [hended] at hle
  exact WithBot.coe_le_coe.mp hle

theorem begun_le {most : Int} (hrow : life.begins row ≤ most)
    (h : ∀ held ∈ state.versions, life.begins held ≤ most ∧
      ∀ ended ∈ life.ends held, ended ≤ most) :
    state.begun life row ≤ most := by
  have hfloor : state.floor life ≤ (most : WithBot Int) := by
    refine Multiset.sup_le.mpr fun instant hinstant => ?_
    obtain ⟨held, hheld, rfl⟩ := Multiset.mem_map.mp hinstant
    refine max_le (WithBot.coe_le_coe.mpr (h held hheld).1) ?_
    cases hended : life.ends held with
    | none => exact bot_le
    | some ended => exact WithBot.coe_le_coe.mpr ((h held hheld).2 ended hended)
  unfold begun
  cases hheld : state.floor life with
  | bot => simpa using hrow
  | coe held =>
    rw [hheld] at hfloor
    exact max_le (WithBot.coe_le_coe.mp hfloor) hrow

/-- What replaces a version, or opens one, is the latest of the key. -/
theorem floor_replace {data : Option R} (h : state.current.isSome ∨ data.isSome) (row : R) :
    (state.replace life data row).floor life = state.begun life row := by
  refine le_antisymm (Multiset.sup_le.mpr fun instant hinstant => ?_) ?_
  · obtain ⟨held, hheld, rfl⟩ := Multiset.mem_map.mp hinstant
    rcases mem_versions.mp hheld with hclosed | hopened
    · rcases Multiset.mem_add.mp hclosed with hclosed | hclosed
      · obtain ⟨version, hcurrent, rfl⟩ : ∃ version, state.current = some version ∧
            life.closeAt (state.begun life row) version = held := by simpa using hclosed
        have hle := begins_le_begun life (mem_versions.mpr (.inr hcurrent)) row
        simpa [latest] using hle
      · exact (le_floor (mem_versions.mpr (.inl hclosed))).trans (floor_le_begun life state row).1
    · obtain ⟨data, -, rfl⟩ := Option.map_eq_some_iff.mp hopened
      simp [latest]
  · rcases h with hcurrent | hdata
    · obtain ⟨version, hversion⟩ := Option.isSome_iff_exists.mp hcurrent
      have hmem : life.closeAt (state.begun life row) version
          ∈ (state.replace life data row).versions :=
        mem_versions.mpr (.inl (by simp [replace, hversion]))
      refine le_trans ?_ (le_floor hmem)
      simp [latest]
    · obtain ⟨data, rfl⟩ := Option.isSome_iff_exists.mp hdata
      have hmem : life.openAt (state.begun life row) data row
          ∈ (state.replace life (some data) row).versions := mem_versions.mpr (.inr rfl)
      refine le_trans ?_ (le_floor hmem)
      simp [latest]

/-! ## What a step does -/

/-- Whether `state'` has of the key the versions `state` has, or those once `row` replaced its
    current version, by `row`, by itself, or by none. -/
inductive Moved (life : Life R σ H) (row : R) (state state' : State R σ P) : Prop
  | stay (hclosed : state'.closed = state.closed) (hcurrent : state'.current = state.current)
      (hnewest : state'.newest = state.newest)
  | replaced (data : Option R) (hdata : data = none ∨ data = some row ∨ data = state.current)
      (hclosed : state'.closed = (state.replace life data row).closed)
      (hcurrent : state'.current = (state.replace life data row).current)
      (hnewest : state'.newest = (state.replace life data row).newest)

theorem Moved.congr {mid : State R σ P} (h : Moved life row state mid)
    (hclosed : state'.closed = mid.closed) (hcurrent : state'.current = mid.current)
    (hnewest : state'.newest = mid.newest) : Moved life row state state' := by
  cases h with
  | stay hclosed' hcurrent' hnewest' =>
    exact .stay (hclosed.trans hclosed') (hcurrent.trans hcurrent') (hnewest.trans hnewest')
  | replaced data hdata hclosed' hcurrent' hnewest' =>
    exact .replaced data hdata (hclosed.trans hclosed') (hcurrent.trans hcurrent')
      (hnewest.trans hnewest')

section

variable (life : Life R σ H) (state : State R σ P)

theorem moved_removed (row : R) : Moved life row state (state.removed life row) := by
  unfold removed
  split
  · exact .stay rfl rfl rfl
  split
  · exact .replaced none (.inl rfl) rfl rfl rfl
  split
  · exact .stay rfl rfl rfl
  · rename_i version hcurrent _ _
    exact .replaced (some version) (.inr (.inr hcurrent.symm)) rfl rfl rfl

theorem moved_truncate (row : R) : Moved life row state (state.truncate life row) := by
  have hcleared : Moved life row state (state.cleared life row) := by
    unfold cleared
    split
    · exact (moved_removed life state row).congr rfl rfl rfl
    · exact .stay rfl rfl rfl
  unfold truncate
  split
  · exact hcleared.congr rfl rfl rfl
  · exact .stay rfl rfl rfl

theorem moved_delete (change : Change R P) :
    Moved life change.row state (state.delete life change) :=
  (moved_removed life state change.row).congr rfl rfl rfl

end

variable [DecidableEq H]

theorem moved_upsert (life : Life R σ H) (state : State R σ P) (change : Change R P) :
    Moved life change.row state (state.upsert life change) := by
  have hupserted : Moved life change.row state (state.upserted life change.row) := by
    unfold upserted
    split
    · exact .stay rfl rfl rfl
    · exact .replaced (some change.row) (.inr (.inl rfl)) rfl rfl rfl
  exact hupserted.congr rfl rfl rfl

theorem moved_step (life : Life R σ H) (guarded : Bool) (state : State R σ P)
    (change : Change R P) : Moved life change.row state (state.step life guarded change) := by
  unfold step
  split
  · exact moved_truncate life state change.row
  split
  · exact .stay rfl rfl rfl
  split
  · exact moved_delete life state change
  · exact moved_upsert life state change

end State

/-! ## Lives -/

omit [LinearOrder σ] [DecidableEq H] in
/-- When a version held: from when it begins, until it ends where it does. -/
def Life.interval (life : Life R σ H) (row : R) : Set Int :=
  (life.ends row).elim (Set.Ici (life.begins row)) (Set.Ico (life.begins row))

variable {state : State R σ P} {row : R}

namespace State

omit [DecidableEq H]

/-- Whether the key's versions live one after another: those that ended do not overlap, none ended
    before it began, and the current one is open and begins no earlier than any other begins or
    ends. -/
structure Lives (life : Life R σ H) (state : State R σ P) : Prop where
  ended : ∀ row ∈ state.closed, ∃ ended, life.ends row = some ended ∧ life.begins row ≤ ended
  apart : state.closed.Pairwise fun left right =>
    Disjoint (life.interval left) (life.interval right)
  unended : ∀ row ∈ state.current, life.ends row = none
  last : ∀ row ∈ state.current, ∀ held ∈ state.closed,
    life.begins held ≤ life.begins row ∧ ∀ ended ∈ life.ends held, ended ≤ life.begins row

omit [LinearOrder σ] in
omit [LinearOrder σ] in
theorem disjoint_of_ends_le {ended : Int} (hended : life.ends held = some ended)
    (hle : ended ≤ life.begins row) : Disjoint (life.interval row) (life.interval held) := by
  rw [Set.disjoint_left]
  intro instant hrow hheld
  have hbegins : life.begins row ≤ instant := by
    unfold Life.interval at hrow
    cases hends : life.ends row with
    | none => simpa [hends] using hrow
    | some other =>
      rw [hends] at hrow
      exact hrow.1
  have hlt : instant < ended := by
    simp only [Life.interval, hended, Option.elim_some] at hheld
    exact hheld.2
  omega

/-- Replacing the current version keeps the lives of a key's versions one after another. -/
theorem Lives.replace (h : state.Lives life) (data : Option R) (row : R) :
    (state.replace life data row).Lives life := by
  have hsplit : ∀ held ∈ (state.replace life data row).closed, (∃ version,
      state.current = some version ∧ life.closeAt (state.begun life row) version = held) ∨
        held ∈ state.closed :=
    fun held hheld => (Multiset.mem_add.mp hheld).imp_left fun hclosed => by simpa using hclosed
  have hlast : ∀ held ∈ (state.replace life data row).closed,
      life.begins held ≤ state.begun life row ∧
        ∀ ended ∈ life.ends held, ended ≤ state.begun life row := by
    intro held hheld
    rcases hsplit held hheld with ⟨version, hcurrent, rfl⟩ | hclosed
    · have hmem := mem_versions.mpr (.inr hcurrent)
      refine ⟨(life.begins_closeAt _ _).trans_le (begins_le_begun life hmem row), ?_⟩
      intro ended hended
      rw [life.ends_closeAt] at hended
      exact (Option.some.inj hended).ge
    · have hmem := mem_versions.mpr (.inl hclosed)
      exact ⟨begins_le_begun life hmem row, fun ended hended => ends_le_begun hmem row hended⟩
  constructor
  · intro held hheld
    rcases hsplit held hheld with ⟨version, hcurrent, rfl⟩ | hclosed
    · refine ⟨_, life.ends_closeAt _ _, ?_⟩
      rw [life.begins_closeAt]
      exact begins_le_begun life (mem_versions.mpr (.inr hcurrent)) row
    · exact h.ended held hclosed
  · cases hcurrent : state.current with
    | none =>
      have hsame : (state.replace life data row).closed = state.closed := by
        simp [State.replace, hcurrent]
      rw [hsame]
      exact h.apart
    | some version =>
      have hcons : (state.replace life data row).closed
          = life.closeAt (state.begun life row) version ::ₘ state.closed := by
        simp [State.replace, hcurrent]
      obtain ⟨list, hlist, hapart⟩ := h.apart
      rw [hcons, hlist]
      refine ⟨_ :: list, rfl, List.pairwise_cons.mpr ⟨fun held hmem => ?_, hapart⟩⟩
      have hheld : held ∈ state.closed := hlist ▸ hmem
      obtain ⟨ended, hended, -⟩ := h.ended held hheld
      refine disjoint_of_ends_le hended ?_
      rw [life.begins_closeAt]
      exact (h.last version hcurrent held hheld).2 ended hended
  · intro opened hopened
    obtain ⟨data, -, rfl⟩ := Option.map_eq_some_iff.mp hopened
    exact life.ends_openAt _ _ _
  · intro opened hopened held hheld
    obtain ⟨data, -, rfl⟩ := Option.map_eq_some_iff.mp hopened
    rw [life.begins_openAt]
    exact hlast held hheld

theorem Lives.moved (h : state.Lives life) (hmoved : Moved life row state state') :
    state'.Lives life := by
  cases hmoved with
  | stay hclosed hcurrent _ =>
    exact ⟨hclosed ▸ h.ended, hclosed ▸ h.apart, hcurrent ▸ h.unended, hclosed ▸ hcurrent ▸ h.last⟩
  | replaced data hdata hclosed hcurrent _ =>
    have h' := h.replace data row
    exact ⟨hclosed ▸ h'.ended, hclosed ▸ h'.apart, hcurrent ▸ h'.unended,
      hclosed ▸ hcurrent ▸ h'.last⟩

theorem Lives.merge [DecidableEq H] (h : state.Lives life) (guarded : Bool)
    (changes : List (Change R P)) : (state.merge life guarded changes).Lives life := by
  have hrun : (state.run life guarded (changes.insertionSort (Change.before life))).Lives life :=
    List.foldlRecOn _ _ h fun state h change _ => h.moved (moved_step life guarded state change)
  exact ⟨hrun.ended, hrun.apart, hrun.unended, hrun.last⟩

end State

end Rdlt.Merge.Versioned
