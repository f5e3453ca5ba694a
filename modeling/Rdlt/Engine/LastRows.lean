/-
  Rdlt.Engine.LastRows

  What a flush finds: sequences order rows as their positions do, a bit is set
  exactly where no later row of the flush holds the same key of the same types,
  and whenever a flush gives up what it found, each of its pieces takes its own
  bits or none.
-/

import Rdlt.Engine.Staging

namespace Rdlt.Engine

open Lib

variable {τ : Type} {place : Nat} {bits : Option (List Bool)}

/-! ## Sequences -/

/-- Numbers that fit compare as their bytes. -/
theorem beBytes_lt {width n m : Nat} (hlt : n < m) (hm : m < 256 ^ width) :
    beBytes width n < beBytes width m := by
  induction width generalizing n m with
  | zero => omega
  | succ width ih =>
    have hpos : 0 < 256 ^ width := Nat.pow_pos (by decide)
    have hdigit : m / 256 ^ width < 256 := Nat.div_lt_of_lt_mul (by rw [pow_succ] at hm; exact hm)
    have hle : n / 256 ^ width ≤ m / 256 ^ width := Nat.div_le_div_right hlt.le
    have hval : ∀ {x : Nat}, x < 256 → (Fin.ofNat 256 x).val = x := fun hx =>
      Nat.mod_eq_of_lt hx
    rw [beBytes, beBytes, List.cons_lt_cons_iff]
    obtain hlt' | heq := hle.lt_or_eq
    · left
      rw [Fin.lt_def, hval (hlt'.trans hdigit), hval hdigit]
      exact hlt'
    · right
      refine ⟨by rw [heq], ih ?_ (Nat.mod_lt _ hpos)⟩
      have hn := Nat.div_add_mod n (256 ^ width)
      have hm := Nat.div_add_mod m (256 ^ width)
      rw [heq] at hn
      omega

theorem sequence_lt {segment position later : Nat} (hlt : position < later)
    (hfits : later < 2 ^ 64) : sequence segment position < sequence segment later := by
  rw [sequence, sequence]
  exact List.append_left_lt (beBytes_lt hlt (by norm_num at hfits ⊢; exact hfits))

/-! ## The last row of each key -/

theorem getElem?_lastOfEachKey {keys : List Bytes} : (lastOfEachKey keys)[place]? = some true
      ↔ ∃ key, keys[place]? = some key ∧ ∀ later, place < later → keys[later]? ≠ some key := by
  rw [lastOfEachKey, getElem?_setBits, mem_lastOfRuns]
  constructor
  · rintro (h | ⟨h, -⟩)
    · simp [List.getElem?_replicate] at h
    · exact h
  · rintro ⟨key, hkey, hlast⟩
    refine .inr ⟨⟨key, hkey, hlast⟩, ?_⟩
    rw [List.length_replicate]
    exact (List.getElem?_eq_some_iff.mp hkey).1

/-- The keys of every batch's rows, in order, each with its types. -/
def typed (batches : List (KeyBatch τ)) : List (τ × Bytes) :=
  batches.flatMap fun batch => batch.keys.map fun key => (batch.types, key)

theorem length_typed (batches : List (KeyBatch τ)) :
    (typed batches).length = (batches.map fun batch => batch.keys.length).sum := by
  simp [typed, List.length_flatMap]

/-- The rows of the batches of one type, each with its place, are those of that type. -/
theorem flatMap_firsts [DecidableEq τ] (types : τ) (first : Nat) (batches : List (KeyBatch τ)) :
    ((firsts first batches).filter (·.1.types = types)).flatMap
        (fun member => member.1.keys.zipIdx member.2)
      = (((typed batches).zipIdx first).filter (·.1.1 = types)).map
          fun entry => (entry.1.2, entry.2) := by
  induction batches generalizing first with
  | nil => rfl
  | cons batch batches ih =>
    have hown : (((batch.keys.map fun key => (batch.types, key)).zipIdx first).filter
          (·.1.1 = types)).map (fun entry => (entry.1.2, entry.2))
        = if batch.types = types then batch.keys.zipIdx first else [] := by
      rw [List.zipIdx_map, List.filter_map, List.map_map]
      by_cases htypes : batch.types = types
      · simp [htypes, Function.comp_def]
      · simp [htypes, Function.comp_def]
    have htyped : typed (batch :: batches)
        = (batch.keys.map fun key => (batch.types, key)) ++ typed batches := rfl
    rw [htyped, List.zipIdx_append, List.filter_append, List.map_append, hown, List.length_map,
      ← ih, firsts, List.filter_cons]
    by_cases htypes : batch.types = types
    · simp [htypes]
    · simp [htypes]

/-- The places found of one type are those of the rows no later row of the type shares a key
    with. -/
theorem mem_lastAlike [DecidableEq τ] {types : τ} {batches : List (KeyBatch τ)} :
    place ∈ lastAlike ((firsts 0 batches).filter (·.1.types = types))
      ↔ ∃ key, (typed batches)[place]? = some (types, key) ∧
          ∀ later, place < later → (typed batches)[later]? ≠ some (types, key) := by
  set members := (firsts 0 batches).filter (·.1.types = types)
  set entries := (((typed batches).zipIdx 0).filter (·.1.1 = types)).map
    fun entry => (entry.1.2, entry.2) with hentries
  have hmembers : members.flatMap (fun member => member.1.keys.zipIdx member.2) = entries :=
    flatMap_firsts types 0 batches
  have hrows : members.flatMap (fun member => member.1.keys) = entries.map Prod.fst := by
    rw [← hmembers, List.map_flatMap]
    simp
  have hplaces : members.flatMap (fun member => List.range' member.2 member.1.keys.length)
      = entries.map Prod.snd := by
    rw [← hmembers, List.map_flatMap]
    simp
  have hsorted : (entries.map Prod.snd).Pairwise (· < ·) := by
    rw [hentries, List.map_map]
    have hall : (((typed batches).zipIdx 0).map Prod.snd).Pairwise (· < ·) := by
      rw [List.zipIdx_map_snd]
      exact List.pairwise_lt_range'
    exact hall.sublist ((List.filter_sublist).map _)
  have hmem :
      ∀ key other, (key, other) ∈ entries ↔ (typed batches)[other]? = some (types, key) := by
    intro key other
    rw [hentries, List.mem_map, ← List.mk_mem_zipIdx_iff_getElem?]
    constructor
    · rintro ⟨⟨⟨types', key'⟩, place⟩, hfiltered, heq⟩
      obtain ⟨hentry, htypes⟩ := List.mem_filter.mp hfiltered
      obtain rfl : types' = types := by simpa using htypes
      cases heq
      exact hentry
    · intro hentry
      exact ⟨_, List.mem_filter.mpr ⟨hentry, by simp⟩, rfl⟩
  rw [lastAlike]
  simp only [hrows, hplaces]
  rw [mem_places_lastOfRuns hsorted]
  refine exists_congr fun key => ?_
  rw [hmem]
  refine and_congr_right fun _ => ?_
  constructor
  · intro hlast later hlater hsame
    exact absurd (hlast later ((hmem key later).mpr hsame)) (not_le.mpr hlater)
  · intro hlast other hother
    exact not_lt.mp fun hlt => hlast other hlt ((hmem key other).mp hother)

/-- A bit is set where no later row of any batch holds the same key of the same types. -/
theorem getElem?_lastAcross [LinearOrder τ] {batches : List (KeyBatch τ)} :
    (lastAcross batches)[place]? = some true ↔ ∃ key, (typed batches)[place]? = some key ∧
          ∀ later, place < later → (typed batches)[later]? ≠ some key := by
  have hgroup : ∀ types members,
      (types, members) ∈ (group (fun member => member.1.types) (firsts 0 batches)).toList →
        members = (firsts 0 batches).filter (·.1.types = types) := by
    intro types members hmem
    rw [← getElem?_group, (OrdMap.mem_toList _).mp hmem, Option.getD_some]
  rw [lastAcross, getElem?_foldl_setBits, List.length_replicate, ← length_typed]
  constructor
  · rintro (h | ⟨⟨⟨types, members⟩, hmem, hplace⟩, -⟩)
    · simp [List.getElem?_replicate] at h
    · rw [hgroup types members hmem] at hplace
      obtain ⟨key, hkey, hlast⟩ := mem_lastAlike.mp hplace
      exact ⟨(types, key), hkey, hlast⟩
  · rintro ⟨⟨types, key⟩, hkey, hlast⟩
    refine .inr ⟨?_, (List.getElem?_eq_some_iff.mp hkey).1⟩
    have hplace := mem_lastAlike.mpr ⟨key, hkey, hlast⟩
    cases hbucket : (group (fun member => member.1.types) (firsts 0 batches))[types]? with
    | none =>
      have hempty := getElem?_group (fun member => member.1.types) (firsts 0 batches) types
      rw [hbucket, Option.getD_none] at hempty
      rw [← hempty] at hplace
      simp [lastAlike] at hplace
    | some members =>
      have hmem := (OrdMap.mem_toList _).mpr hbucket
      exact ⟨(types, members), hmem, by rw [hgroup types members hmem]; exact hplace⟩

/-! ## What the pieces take -/

theorem getElem?_slices {last : List Bool} {rows : List Nat} {piece : Nat}
    (h : (slices last rows)[piece]? = some bits) :
    ∃ set, bits = some set ∧ ∀ position < rows.getD piece 0,
      set[position]? = last[(rows.take piece).sum + position]? := by
  induction rows generalizing last piece with
  | nil => simp [slices] at h
  | cons count rows ih =>
    cases piece with
    | zero =>
      refine ⟨_, (Option.some.inj h).symm, fun position hposition => ?_⟩
      simp only [List.getD_cons_zero] at hposition
      simp [hposition]
    | succ piece =>
      obtain ⟨set, hset, hbits⟩ := ih h
      refine ⟨set, hset, fun position hposition => ?_⟩
      rw [hbits position (by simpa using hposition), List.getElem?_drop, List.take_succ_cons,
        List.sum_cons, Nat.add_assoc]

theorem length_takeEach (waits : Nat → Bool) (staged : Staged) (piece left : Nat) :
    (takeEach waits staged piece left).length = left := by
  induction left generalizing staged piece with
  | zero => rfl
  | succ left ih => rw [takeEach, List.length_cons, ih]

theorem getElem?_takeEach {waits : Nat → Bool} {staged : Staged} {piece left index : Nat}
    (h : (takeEach waits staged piece left)[index]? = some bits) :
    bits = none ∨ staged.pieces[piece + index]? = some bits := by
  induction left generalizing staged piece index with
  | zero => simp [takeEach] at h
  | succ left ih =>
    -- giving up leaves no bits to take
    have hgiven : ∀ {place : Nat} {held : Option (List Bool)},
        (if waits piece then staged.giveUp else staged).pieces[place]? = some held →
          held = none ∨ staged.pieces[place]? = some held := by
      intro place held hheld
      split at hheld
      · simp only [Staged.giveUp, List.getElem?_map, Option.map_eq_some_iff] at hheld
        exact .inl hheld.choose_spec.2.symm
      · exact .inr hheld
    cases index with
    | zero =>
      have htaken := Option.some.inj h
      rw [Staged.take] at htaken
      cases hheld : (if waits piece then staged.giveUp else staged).pieces[piece]? with
      | none =>
        rw [hheld] at htaken
        exact .inl htaken.symm
      | some held =>
        rw [hheld] at htaken
        obtain rfl : held = bits := htaken
        exact hgiven hheld
    | succ index =>
      obtain hnone | hheld := ih h
      · exact .inl hnone
      · rw [Staged.take, List.getElem?_set_ne (by omega)] at hheld
        rw [Nat.add_comm index 1, ← Nat.add_assoc]
        exact hgiven hheld

end Rdlt.Engine
