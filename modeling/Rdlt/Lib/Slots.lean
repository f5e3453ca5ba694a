/-
  Rdlt.Lib.Slots

  A table of slots that keys of groups hold. A key that is started again takes
  the slot its ended holder had, and a new one the slot of a holder no index
  names any more, else a fresh slot.
-/

import Mathlib.Data.Finset.Basic
import Mathlib.Logic.Function.Basic

namespace Rdlt.Lib

variable {γ ι : Type}

/-! ## Slots -/

/-- Who holds a slot, and whether it has ended. -/
@[ext] structure Holder (γ ι : Type) where
  group : γ
  key : ι
  ended : Bool

@[ext] structure Slots (γ ι : Type) where
  held : Nat → Option (Holder γ ι)
  /-- The slot each key of a group holds; none for a group whose keys never start again. -/
  index : γ → Option (ι → Option Nat)
  /-- The slots with something of their holders pending. -/
  pending : Finset Nat
  /-- The slots no index names. -/
  retired : Finset Nat

variable {slots : ι → Option Nat} {h : γ} {l : ι} {holder : Holder γ ι}

namespace Slots

variable {s : Slots γ ι}

/-- The table is sound: an index names the slots its keys hold, and every slot whose holder has not
    ended or has something pending is named. -/
structure Sound (s : Slots γ ι) : Prop where
  indexed : ∀ {g slots k i}, s.index g = some slots → slots k = some i →
    ∃ ended, s.held i = some ⟨g, k, ended⟩
  found : ∀ {i holder slots}, s.held i = some holder → (holder.ended = false ∨ i ∈ s.pending) →
    s.index holder.group = some slots → slots holder.key = some i
  alone : ∀ {i j holder other}, s.held i = some holder → s.held j = some other →
    holder.group = other.group → holder.key = other.key → s.index holder.group = none → i = j
  retiredHeld : ∀ {i}, i ∈ s.retired →
    ∃ holder, s.held i = some holder ∧ holder.ended = true ∧ (s.index holder.group).isSome
  retiredSettled : ∀ {i}, i ∈ s.retired → i ∉ s.pending
  retiredUnnamed : ∀ {i g slots k}, i ∈ s.retired → s.index g = some slots → slots k ≠ some i
  pendingHeld : ∀ {i}, i ∈ s.pending → ∃ holder, s.held i = some holder

/-! ## Holders end, things become pending and are settled -/

def mark (s : Slots γ ι) (i : Nat) : Slots γ ι := { s with pending := insert i s.pending }

def settle (s : Slots γ ι) : Slots γ ι := { s with pending := ∅ }

def finish (s : Slots γ ι) (i : Nat) : Slots γ ι :=
  { s with held := fun j =>
      if j = i then (s.held i).map fun holder => { holder with ended := true } else s.held j }

theorem Sound.mark (hs : s.Sound) {i : Nat} (hi : s.held i = some holder)
    (hreading : holder.ended = false) : (s.mark i).Sound := by
  have hfresh : i ∉ s.retired := by
    intro hretired
    obtain ⟨other, hother, hended, -⟩ := hs.retiredHeld hretired
    rw [hi] at hother
    rw [Option.some.inj hother, hended] at hreading
    cases hreading
  refine ⟨hs.indexed, fun {j other slots} hj hlive hindex => ?_, hs.alone, hs.retiredHeld,
    fun {j} hj => ?_, hs.retiredUnnamed, fun {j} hj => ?_⟩
  · by_cases hsame : j = i
    · subst hsame
      have hother : holder = other := Option.some.inj (hi.symm.trans hj)
      exact hs.found hj (.inl (hother ▸ hreading)) hindex
    · refine hs.found hj (hlive.imp_right fun hpending => ?_) hindex
      exact (Finset.mem_insert.mp hpending).resolve_left hsame
  · intro hpending
    rcases Finset.mem_insert.mp hpending with rfl | hpending
    · exact hfresh hj
    · exact hs.retiredSettled hj hpending
  · rcases Finset.mem_insert.mp hj with rfl | hpending
    · exact ⟨holder, hi⟩
    · exact hs.pendingHeld hpending

theorem Sound.settle (hs : s.Sound) : s.settle.Sound where
  indexed := hs.indexed
  found := fun hi hlive =>
    hs.found hi (hlive.imp_right fun hnone => absurd hnone (by simp [Slots.settle]))
  alone := hs.alone
  retiredHeld := hs.retiredHeld
  retiredSettled := fun _ hnone => absurd hnone (by simp [Slots.settle])
  retiredUnnamed := hs.retiredUnnamed
  pendingHeld := fun hnone => absurd hnone (by simp [Slots.settle])

theorem exists_of_held_finish {i j : Nat} (hj : (s.finish i).held j = some holder) :
    ∃ earlier, s.held j = some earlier ∧ holder.group = earlier.group ∧ holder.key = earlier.key ∧
      (holder.ended = false → earlier.ended = false) := by
  simp only [finish] at hj
  split at hj
  · rename_i hsame
    subst hsame
    obtain ⟨earlier, hearlier, rfl⟩ := Option.map_eq_some_iff.mp hj
    exact ⟨earlier, hearlier, rfl, rfl, fun hended => by cases hended⟩
  · exact ⟨holder, hj, rfl, rfl, id⟩

theorem exists_held_finish (i : Nat) {j : Nat} {earlier : Holder γ ι}
    (hj : s.held j = some earlier) :
    ∃ ended, (s.finish i).held j = some ⟨earlier.group, earlier.key, ended⟩ ∧
      (earlier.ended = true → ended = true) := by
  by_cases hsame : j = i
  · subst hsame
    exact ⟨true, by simp [finish, hj], fun _ => rfl⟩
  · exact ⟨earlier.ended, by simp [finish, hsame, hj], id⟩

theorem Sound.finish (hs : s.Sound) (i : Nat) : (s.finish i).Sound where
  indexed := fun hindex hslot => by
    obtain ⟨ended, hheld⟩ := hs.indexed hindex hslot
    obtain ⟨ended, hheld, -⟩ := exists_held_finish i hheld
    exact ⟨ended, hheld⟩
  found := fun hi hlive hindex => by
    obtain ⟨earlier, hearlier, hgroup, hkey, hended⟩ := exists_of_held_finish hi
    rw [hkey]
    exact hs.found hearlier (hlive.imp_left hended) (hgroup ▸ hindex)
  alone := fun hi hj hgroup hkey hindex => by
    obtain ⟨a, ha, hga, hka, -⟩ := exists_of_held_finish hi
    obtain ⟨b, hb, hgb, hkb, -⟩ := exists_of_held_finish hj
    exact hs.alone ha hb (hga ▸ hgb ▸ hgroup) (hka ▸ hkb ▸ hkey) (hga ▸ hindex)
  retiredHeld := fun hretired => by
    obtain ⟨earlier, hearlier, hended, hindexed⟩ := hs.retiredHeld hretired
    obtain ⟨ended, hheld, hkept⟩ := exists_held_finish i hearlier
    exact ⟨_, hheld, hkept hended, hindexed⟩
  retiredSettled := hs.retiredSettled
  retiredUnnamed := hs.retiredUnnamed
  pendingHeld := fun hpending => by
    obtain ⟨earlier, hearlier⟩ := hs.pendingHeld hpending
    obtain ⟨ended, hheld, -⟩ := exists_held_finish i hearlier
    exact ⟨_, hheld⟩

/-! ## Slots that may be taken -/

/-- The key `k` of `g` may start: it holds no slot whose holder reads or has something pending. -/
def Ready (s : Slots γ ι) (g : γ) (k : ι) : Prop :=
  ∃ slots, s.index g = some slots ∧ ∀ i, slots k = some i →
    (∃ holder, s.held i = some holder ∧ holder.ended = true) ∧ i ∉ s.pending

/-- The slot `i` is one the key `k` of `g` may take: the one it holds, else one no index names or a
    fresh one. -/
def Open (s : Slots γ ι) (g : γ) (k : ι) (i : Nat) : Prop :=
  ∃ slots, s.index g = some slots ∧
    (slots k = some i ∨ slots k = none ∧ (i ∈ s.retired ∨ s.held i = none))

section Open

variable {s : Slots γ ι} {g : γ} {k : ι} {i : Nat}

theorem Sound.free (hs : s.Sound) (hready : s.Ready g k) (hopen : s.Open g k i) :
    (∀ holder, s.held i = some holder → holder.ended = true) ∧ i ∉ s.pending := by
  obtain ⟨slots, hindex, hheld⟩ := hready
  obtain ⟨slots', hindex', hcases⟩ := hopen
  cases hindex.symm.trans hindex'
  rcases hcases with hslot | ⟨-, hretired | hfresh⟩
  · obtain ⟨⟨holder, hholder, hended⟩, hsettled⟩ := hheld i hslot
    refine ⟨fun other hother => ?_, hsettled⟩
    rw [hholder] at hother
    rwa [← Option.some.inj hother]
  · obtain ⟨holder, hholder, hended, -⟩ := hs.retiredHeld hretired
    refine ⟨fun other hother => ?_, hs.retiredSettled hretired⟩
    rw [hholder] at hother
    rwa [← Option.some.inj hother]
  · refine ⟨fun other hother => ?_, fun hpending => ?_⟩
    · rw [hfresh] at hother
      cases hother
    · obtain ⟨holder, hholder⟩ := hs.pendingHeld hpending
      rw [hfresh] at hholder
      cases hholder

theorem Sound.open_named (hs : s.Sound) (hopen : s.Open g k i) (hindex : s.index h = some slots)
    (hslot : slots l = some i) : h = g ∧ l = k := by
  obtain ⟨slots', hindex', hcases⟩ := hopen
  obtain ⟨ended, hheld⟩ := hs.indexed hindex hslot
  rcases hcases with hslot' | ⟨-, hretired | hfresh⟩
  · obtain ⟨ended', hheld'⟩ := hs.indexed hindex' hslot'
    rw [hheld] at hheld'
    obtain ⟨hgroup, hkey, -⟩ := Holder.mk.inj (Option.some.inj hheld')
    exact ⟨hgroup, hkey⟩
  · exact absurd hslot (hs.retiredUnnamed hretired hindex)
  · rw [hfresh] at hheld
    cases hheld

end Open

/-! ## Slots given up -/

variable [DecidableEq γ]

/-- The index of `g` gives up the keys `drops` says, whose slots, `freed`, are retired. -/
def drop (s : Slots γ ι) (g : γ) (drops : ι → Prop) [DecidablePred drops] (freed : Finset Nat) :
    Slots γ ι :=
  { s with
    index := fun h =>
      if h = g then (s.index g).map fun slots k => if drops k then none else slots k else s.index h
    retired := s.retired ∪ freed }

section Drop

variable {s : Slots γ ι} {g : γ} {drops : ι → Prop} [DecidablePred drops] {freed : Finset Nat}

theorem exists_of_index_drop (hindex : (s.drop g drops freed).index h = some slots) :
    ∃ earlier, s.index h = some earlier ∧ (∀ k i, slots k = some i → earlier k = some i) ∧
      (∀ k, ¬ (h = g ∧ drops k) → slots k = earlier k) ∧
        (h = g → ∀ k, drops k → slots k = none) := by
  simp only [drop] at hindex
  split at hindex
  · rename_i hsame
    subst hsame
    obtain ⟨earlier, hearlier, rfl⟩ := Option.map_eq_some_iff.mp hindex
    refine ⟨earlier, hearlier, fun k i hk => ?_, fun k hk => if_neg fun hdrops => hk ⟨rfl, hdrops⟩,
      fun _ k hk => if_pos hk⟩
    beta_reduce at hk
    split at hk
    · cases hk
    · exact hk
  · rename_i hother
    exact ⟨slots, hindex, fun _ _ => id, fun _ _ => rfl, fun hsame => absurd hsame hother⟩

theorem isSome_index_drop (h : γ) :
    ((s.drop g drops freed).index h).isSome = (s.index h).isSome := by
  simp only [drop]
  split
  · rename_i hsame
    rw [hsame, Option.isSome_map]
  · rfl

/-- Slots may be given up whose holders ended with nothing pending. -/
theorem Sound.drop (hs : s.Sound)
    (hfree : ∀ slots k i, s.index g = some slots → drops k → slots k = some i →
      (∃ holder, s.held i = some holder ∧ holder.ended = true) ∧ i ∉ s.pending)
    (hfreed : ∀ i ∈ freed, ∃ slots k, s.index g = some slots ∧ drops k ∧ slots k = some i) :
    (s.drop g drops freed).Sound where
  indexed := fun hindex hslot => by
    obtain ⟨earlier, hearlier, hsub, -⟩ := exists_of_index_drop hindex
    exact hs.indexed hearlier (hsub _ _ hslot)
  found := fun {i holder slots} hi hlive hindex => by
    obtain ⟨earlier, hearlier, -, hkept, -⟩ := exists_of_index_drop hindex
    have hslot := hs.found hi hlive hearlier
    rw [hkept holder.key, hslot]
    rintro ⟨hgroup, hdrops⟩
    obtain ⟨⟨other, hother, hended⟩, hsettled⟩ := hfree earlier _ i (hgroup ▸ hearlier) hdrops hslot
    rcases hlive with hlive | hpending
    · rw [show s.held i = some holder from hi] at hother
      rw [Option.some.inj hother, hended] at hlive
      cases hlive
    · exact hsettled hpending
  alone := fun {i j holder other} hi hj hgroup hkey hindex => by
    refine hs.alone hi hj hgroup hkey ?_
    have hnone : ((s.drop g drops freed).index holder.group).isSome = _ :=
      isSome_index_drop holder.group
    rw [hindex] at hnone
    exact Option.isNone_iff_eq_none.mp (by simpa using hnone.symm)
  retiredHeld := fun {i} hretired => by
    rcases Finset.mem_union.mp hretired with hretired | hretired
    · obtain ⟨holder, hheld, hended, hindexed⟩ := hs.retiredHeld hretired
      exact ⟨holder, hheld, hended, (isSome_index_drop holder.group).trans hindexed⟩
    · obtain ⟨slots, k, hindex, hdrops, hslot⟩ := hfreed i hretired
      obtain ⟨⟨holder, hheld, hended⟩, -⟩ := hfree slots k i hindex hdrops hslot
      obtain ⟨ended, hnamed⟩ := hs.indexed hindex hslot
      have hgroup : holder.group = g := by
        rw [hheld] at hnamed
        rw [Option.some.inj hnamed]
      refine ⟨holder, hheld, hended, ?_⟩
      rw [isSome_index_drop, hgroup, hindex]
      rfl
  retiredSettled := fun {i} hretired => by
    rcases Finset.mem_union.mp hretired with hretired | hretired
    · exact hs.retiredSettled hretired
    · obtain ⟨slots, k, hindex, hdrops, hslot⟩ := hfreed i hretired
      exact (hfree slots k i hindex hdrops hslot).2
  retiredUnnamed := fun {i h slots k} hretired hindex hslot => by
    obtain ⟨earlier, hearlier, hsub, -, hnone⟩ := exists_of_index_drop hindex
    rcases Finset.mem_union.mp hretired with hretired | hretired
    · exact hs.retiredUnnamed hretired hearlier (hsub _ _ hslot)
    · obtain ⟨slots', k', hindex', hdrops, hslot'⟩ := hfreed i hretired
      -- Both keys hold the slot, so they are one, which the index gave up.
      obtain ⟨_, hheld⟩ := hs.indexed hearlier (hsub _ _ hslot)
      obtain ⟨_, hheld'⟩ := hs.indexed hindex' hslot'
      rw [hheld] at hheld'
      obtain ⟨rfl, rfl, -⟩ := Holder.mk.inj (Option.some.inj hheld')
      rw [hnone rfl k hdrops] at hslot
      cases hslot
  pendingHeld := hs.pendingHeld

end Drop

/-! ## Slots taken -/

variable [DecidableEq ι]

def take (s : Slots γ ι) (g : γ) (k : ι) (i : Nat) : Slots γ ι :=
  { s with
    held := fun j => if j = i then some ⟨g, k, false⟩ else s.held j
    index := fun h =>
      if h = g then (s.index g).map fun slots => Function.update slots k (some i) else s.index h
    retired := s.retired.erase i }

section Take

variable {s : Slots γ ι} {g : γ} {k : ι} {i : Nat}

theorem held_take_self : (s.take g k i).held i = some ⟨g, k, false⟩ := if_pos rfl

theorem held_take_of_ne {j : Nat} (hj : j ≠ i) : (s.take g k i).held j = s.held j := if_neg hj

theorem exists_of_index_take (hindex : (s.take g k i).index h = some slots) :
    ∃ earlier, s.index h = some earlier ∧
      ((h = g ∧ slots = Function.update earlier k (some i)) ∨ (h ≠ g ∧ slots = earlier)) := by
  simp only [take] at hindex
  split at hindex
  · rename_i hsame
    subst hsame
    obtain ⟨earlier, hearlier, rfl⟩ := Option.map_eq_some_iff.mp hindex
    exact ⟨earlier, hearlier, .inl ⟨rfl, rfl⟩⟩
  · rename_i hother
    exact ⟨slots, hindex, .inr ⟨hother, rfl⟩⟩

theorem isSome_index_take (h : γ) : ((s.take g k i).index h).isSome = (s.index h).isSome := by
  simp only [take]
  split
  · rename_i hsame
    rw [hsame, Option.isSome_map]
  · rfl

theorem named_take {j : Nat} (hindex : (s.take g k i).index h = some slots)
    (hslot : slots l = some j) :
    (h = g ∧ l = k ∧ j = i) ∨ ¬ (h = g ∧ l = k) ∧ ∃ earlier, s.index h = some earlier ∧
      earlier l = some j := by
  obtain ⟨earlier, hearlier, ⟨rfl, rfl⟩ | ⟨hother, rfl⟩⟩ := exists_of_index_take hindex
  · by_cases hkey : l = k
    · subst hkey
      rw [Function.update_self] at hslot
      exact .inl ⟨rfl, rfl, (Option.some.inj hslot).symm⟩
    · rw [Function.update_of_ne hkey] at hslot
      exact .inr ⟨fun hsame => hkey hsame.2, earlier, hearlier, hslot⟩
  · exact .inr ⟨fun hsame => hother hsame.1, slots, hearlier, hslot⟩

/-- A key that may start takes a slot it may take, and the table stays sound. -/
theorem Sound.take (hs : s.Sound) (hready : s.Ready g k) (hopen : s.Open g k i) :
    (s.take g k i).Sound := by
  obtain ⟨hfree, hsettled⟩ := hs.free hready hopen
  have hgroup : (s.index g).isSome := by
    obtain ⟨slots, hindex, -⟩ := hready
    rw [hindex]
    rfl
  refine ⟨fun {h slots l j} hindex hslot => ?_, fun {j holder slots} hj hlive hindex => ?_,
    fun {j j' holder other} hj hj' hsame hkey hindex => ?_, fun {j} hretired => ?_,
    fun {j} hretired => hs.retiredSettled (Finset.mem_of_mem_erase hretired),
    fun {j h slots l} hretired hindex hslot => ?_, fun {j} hpending => ?_⟩
  · rcases named_take hindex hslot with ⟨rfl, rfl, rfl⟩ | ⟨hother, earlier, hearlier, hnamed⟩
    · exact ⟨false, held_take_self⟩
    · have hj : j ≠ i := fun hsame => hother (hs.open_named hopen hearlier (hsame ▸ hnamed))
      rw [held_take_of_ne hj]
      exact hs.indexed hearlier hnamed
  · by_cases hsame : j = i
    · subst hsame
      rw [held_take_self] at hj
      cases hj
      obtain ⟨earlier, -, ⟨-, rfl⟩ | ⟨hother, -⟩⟩ := exists_of_index_take hindex
      · exact Function.update_self ..
      · exact absurd rfl hother
    · rw [held_take_of_ne hsame] at hj
      obtain ⟨earlier, hearlier, ⟨hgroup, rfl⟩ | ⟨-, rfl⟩⟩ := exists_of_index_take hindex
      · have hslot := hs.found hj hlive hearlier
        rw [Function.update_of_ne]
        · exact hslot
        · -- The key that starts holds no slot but the one it takes.
          intro hkey
          obtain ⟨slots', hindex', hcases⟩ := hopen
          rw [hgroup, hindex'] at hearlier
          cases hearlier
          rw [hkey] at hslot
          rcases hcases with hnamed | ⟨hnone, -⟩
          · exact hsame (Option.some.inj (hslot.symm.trans hnamed))
          · rw [hnone] at hslot
            cases hslot
      · exact hs.found hj hlive hearlier
  · have hnone : s.index holder.group = none := by
      rw [← Option.isNone_iff_eq_none, ← Option.not_isSome, ← isSome_index_take, hindex]
      rfl
    have hne : ∀ {j} {holder : Holder γ ι}, (s.take g k i).held j = some holder →
        s.index holder.group = none → j ≠ i := by
      rintro j holder hj hnone rfl
      rw [held_take_self] at hj
      rw [← Option.some.inj hj] at hnone
      rw [hnone] at hgroup
      cases hgroup
    have hj₁ := hne hj hnone
    have hj₂ := hne hj' (hsame ▸ hnone)
    rw [held_take_of_ne hj₁] at hj
    rw [held_take_of_ne hj₂] at hj'
    exact hs.alone hj hj' hsame hkey hnone
  · obtain ⟨hne, hretired⟩ := Finset.mem_erase.mp hretired
    obtain ⟨holder, hheld, hended, hindexed⟩ := hs.retiredHeld hretired
    exact ⟨holder, (held_take_of_ne hne).trans hheld, hended,
      (isSome_index_take holder.group).trans hindexed⟩
  · obtain ⟨hne, hretired⟩ := Finset.mem_erase.mp hretired
    rcases named_take hindex hslot with ⟨rfl, rfl, rfl⟩ | ⟨-, earlier, hearlier, hnamed⟩
    · exact hne rfl
    · exact hs.retiredUnnamed hretired hearlier hnamed
  · obtain ⟨holder, hheld⟩ := hs.pendingHeld hpending
    have hne : j ≠ i := by
      rintro rfl
      exact hsettled hpending
    exact ⟨holder, (held_take_of_ne hne).trans hheld⟩

theorem Ready.take (hs : s.Sound) (hopen : s.Open g k i) (hready : s.Ready g l) (hother : l ≠ k) :
    (s.take g k i).Ready g l := by
  obtain ⟨slots, hindex, hheld⟩ := hready
  refine ⟨Function.update slots k (some i), by simp [Slots.take, hindex], fun j hslot => ?_⟩
  rw [Function.update_of_ne hother] at hslot
  have hj : j ≠ i := fun hsame => hother (hs.open_named hopen hindex (hsame ▸ hslot)).2
  rw [held_take_of_ne hj]
  exact hheld j hslot

/-! ## Keys of groups with no index -/

def Fresh (s : Slots γ ι) (g : γ) (k : ι) : Prop :=
  s.index g = none ∧ ∀ j holder, s.held j = some holder → holder.group = g → holder.key ≠ k

theorem index_take_of_none (hgroup : s.index g = none) : (s.take g k i).index = s.index := by
  funext h
  simp only [Slots.take]
  split
  · rename_i hsame
    rw [hsame, hgroup]
    rfl
  · rfl

/-- A key that holds no slot, of a group with no index, takes one nothing holds. -/
theorem Sound.takeFresh (hs : s.Sound) (hfresh : s.Fresh g k) (hfree : s.held i = none) :
    (s.take g k i).Sound := by
  obtain ⟨hgroup, hkey⟩ := hfresh
  have hindex := index_take_of_none (k := k) (i := i) hgroup
  have hne : ∀ {j holder}, s.held j = some holder → j ≠ i := by
    rintro j holder hj rfl
    rw [hfree] at hj
    cases hj
  have hheld : ∀ {j holder}, s.held j = some holder → (s.take g k i).held j = some holder :=
    fun hj => (held_take_of_ne (hne hj)).trans hj
  have hheldOf : ∀ {j holder}, (s.take g k i).held j = some holder →
      (j = i ∧ holder = ⟨g, k, false⟩) ∨ s.held j = some holder := by
    intro j holder hj
    by_cases hsame : j = i
    · rw [hsame, held_take_self] at hj
      exact .inl ⟨hsame, (Option.some.inj hj).symm⟩
    · rw [held_take_of_ne hsame] at hj
      exact .inr hj
  refine ⟨fun {h slots l j} hslots hslot => ?_, fun {j holder slots} hj hlive hslots => ?_,
    fun {j j' holder other} hj hj' hsame hkeys hnone => ?_, fun {j} hretired => ?_,
    fun {j} hretired => hs.retiredSettled (Finset.mem_of_mem_erase hretired),
    fun {j h slots l} hretired hslots => ?_, fun {j} hpending => ?_⟩
  · rw [hindex] at hslots
    obtain ⟨ended, hj⟩ := hs.indexed hslots hslot
    exact ⟨ended, hheld hj⟩
  · rw [hindex] at hslots
    rcases hheldOf hj with ⟨-, rfl⟩ | hj
    · rw [hgroup] at hslots
      cases hslots
    · exact hs.found hj hlive hslots
  · rw [hindex] at hnone
    rcases hheldOf hj with ⟨rfl, rfl⟩ | hheld₁ <;> rcases hheldOf hj' with ⟨rfl, rfl⟩ | hheld₂
    · rfl
    · exact absurd hkeys.symm (hkey j' other hheld₂ hsame.symm)
    · exact absurd hkeys (hkey j holder hheld₁ hsame)
    · exact hs.alone hheld₁ hheld₂ hsame hkeys hnone
  · obtain ⟨holder, hj, hended, hindexed⟩ := hs.retiredHeld (Finset.mem_of_mem_erase hretired)
    exact ⟨holder, hheld hj, hended, hindex ▸ hindexed⟩
  · rw [hindex] at hslots
    exact hs.retiredUnnamed (Finset.mem_of_mem_erase hretired) hslots
  · obtain ⟨holder, hj⟩ := hs.pendingHeld hpending
    exact ⟨holder, hheld hj⟩

theorem Fresh.take (hfresh : s.Fresh g k) (hother : s.Fresh g l) (hne : l ≠ k) :
    (s.take g k i).Fresh g l := by
  refine ⟨by rw [index_take_of_none hfresh.1]; exact hfresh.1, fun j holder hj hgroup => ?_⟩
  by_cases hsame : j = i
  · rw [hsame, held_take_self] at hj
    rw [← Option.some.inj hj]
    exact Ne.symm hne
  · rw [held_take_of_ne hsame] at hj
    exact hother.2 j holder hj hgroup

end Take

end Slots

end Rdlt.Lib
