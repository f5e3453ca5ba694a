/-
  Rdlt.Lib.Coalesce

  What arrives of messages sent over a channel that may put a message in place
  of the one before it, where that one is light and was not taken yet.
-/

import Mathlib.Data.List.Basic

namespace Rdlt.Lib

variable {α β : Type}

/-- `arrived` is what arrives of `sent`: each message last, or as `onto` puts it in place of the
    last, which is light and `dropped`. -/
inductive Coalesced (light : α → Prop) (onto : α → α → α) : List α → List α → List α → Prop where
  | nil : Coalesced light onto [] [] []
  | last {sent arrived dropped : List α} (h : Coalesced light onto sent arrived dropped) (a : α) :
      Coalesced light onto (sent ++ [a]) (arrived ++ [a]) dropped
  | replace {sent arrived dropped : List α} {waited : α}
      (h : Coalesced light onto sent (arrived ++ [waited]) dropped)
      (hlight : light waited) (a : α) :
      Coalesced light onto (sent ++ [a]) (arrived ++ [onto a waited]) (dropped ++ [waited])

namespace Coalesced

variable {light : α → Prop} {onto : α → α → α} {sent arrived dropped : List α}

theorem split (h : Coalesced light onto sent arrived dropped) {first rest : List α}
    (hsplit : arrived = first ++ rest) : ∃ heard unheard early late, sent = heard ++ unheard ∧
      Coalesced light onto heard first early ∧ Coalesced light onto unheard rest late := by
  induction h generalizing first rest with
  | nil =>
    obtain ⟨rfl, rfl⟩ := List.append_eq_nil_iff.mp hsplit.symm
    exact ⟨[], [], [], [], rfl, .nil, .nil⟩
  | @last sent arrived dropped h a ih =>
    rcases rest.eq_nil_or_concat with rfl | ⟨rest, b, rfl⟩
    · rw [List.append_nil] at hsplit
      exact ⟨sent ++ [a], [], dropped, [], by simp, hsplit ▸ h.last a, .nil⟩
    · rw [List.concat_eq_append, ← List.append_assoc] at hsplit
      obtain ⟨harrived, hb⟩ := List.append_inj_left' hsplit rfl, List.append_inj_right' hsplit rfl
      obtain ⟨heard, unheard, early, late, rfl, hfirst, hrest⟩ := ih harrived
      obtain rfl := List.head_eq_of_cons_eq hb
      exact ⟨heard, unheard ++ [a], early, late, by simp, hfirst, by simpa using hrest.last a⟩
  | @replace sent arrived dropped waited h hlight a ih =>
    rcases rest.eq_nil_or_concat with rfl | ⟨rest, b, rfl⟩
    · rw [List.append_nil] at hsplit
      exact ⟨sent ++ [a], [], _, [], by simp, hsplit ▸ h.replace hlight a, .nil⟩
    · rw [List.concat_eq_append, ← List.append_assoc] at hsplit
      obtain ⟨harrived, hb⟩ := List.append_inj_left' hsplit rfl, List.append_inj_right' hsplit rfl
      obtain ⟨heard, unheard, early, late, rfl, hfirst, hrest⟩ :=
        @ih first (rest ++ [waited]) (by rw [harrived, List.append_assoc])
      obtain rfl := List.head_eq_of_cons_eq hb
      exact ⟨heard, unheard ++ [a], early, late ++ [waited], by simp, hfirst,
        by simpa using hrest.replace hlight a⟩

theorem dropped_light (h : Coalesced light onto sent arrived dropped) :
    ∀ waited ∈ dropped, light waited := by
  induction h with
  | nil => simp
  | last h a ih => exact ih
  | replace h hlight a ih =>
    intro waited hwaited
    rcases List.mem_append.mp hwaited with hwaited | hwaited
    · exact ih waited hwaited
    · rwa [List.mem_singleton.mp hwaited]

section Keyed

variable {key : α → β} (honto : ∀ a waited, key (onto a waited) = key a)

include honto

section

variable (h : Coalesced light onto sent arrived dropped)
include h

theorem sublist : (arrived.map key).Sublist (sent.map key) := by
  induction h with
  | nil => exact .slnil
  | last h a ih =>
    rw [List.map_append, List.map_append]
    exact ih.append (List.Sublist.refl _)
  | replace h hlight a ih =>
    rw [List.map_append] at ih
    rw [List.map_append, List.map_append, List.map_singleton, List.map_singleton, honto]
    exact ((List.sublist_append_left ..).trans ih).append (List.Sublist.refl _)

theorem dropped_subset : ∀ waited ∈ dropped, key waited ∈ sent.map key := by
  induction h with
  | nil => simp
  | last h a ih =>
    intro waited hwaited
    rw [List.map_append]
    exact List.mem_append_left _ (ih waited hwaited)
  | replace h hlight a ih =>
    intro waited hwaited
    rw [List.map_append]
    refine List.mem_append_left _ ?_
    rcases List.mem_append.mp hwaited with hwaited | hwaited
    · exact ih waited hwaited
    · rw [List.mem_singleton.mp hwaited]
      exact (h.sublist honto).subset (by simp)

/-- Where no message is sent twice, those arrive that are not dropped. -/
theorem eq_filter [DecidableEq β] (hnodup : (sent.map key).Nodup) :
    arrived.map key = (sent.map key).filter fun k => k ∉ dropped.map key := by
  induction h with
  | nil => rfl
  | @last sent arrived dropped h a ih =>
    rw [List.map_append, List.nodup_append] at hnodup
    have hfresh : key a ∉ dropped.map key := fun hmem => by
      obtain ⟨waited, hwaited, heq⟩ := List.mem_map.mp hmem
      exact hnodup.2.2 _ (h.dropped_subset honto waited hwaited) _ (by simp) heq
    rw [List.map_append, List.map_append, List.filter_append, ← ih hnodup.1, List.map_singleton,
      List.filter_cons_of_pos (by simpa using hfresh), List.filter_nil]
  | @replace sent arrived dropped waited h hlight a ih =>
    rw [List.map_append, List.nodup_append] at hnodup
    have hwhole := ih hnodup.1
    have hsublist := h.sublist honto
    have hfresh : key a ∉ (dropped ++ [waited]).map key := fun hmem => by
      obtain ⟨other, hother, heq⟩ := List.mem_map.mp hmem
      refine hnodup.2.2 (key other) ?_ _ (by simp) heq
      rcases List.mem_append.mp hother with hother | hother
      · exact h.dropped_subset honto other hother
      · rw [List.mem_singleton.mp hother]
        exact hsublist.subset (by simp)
    have honce : key waited ∉ arrived.map key := by
      have := hnodup.1.sublist hsublist
      rw [List.map_append, List.nodup_append] at this
      exact fun hmem => this.2.2 _ hmem _ (by simp) rfl
    have hsplit : (sent.map key).filter (fun k => k ∉ (dropped ++ [waited]).map key)
        = ((sent.map key).filter fun k => k ∉ dropped.map key).filter fun k => k ≠ key waited := by
      rw [List.filter_filter]
      refine List.filter_congr fun k _ => ?_
      simp only [List.map_append, List.map_cons, List.map_nil, List.mem_append, List.mem_cons,
        List.not_mem_nil, or_false, not_or, Bool.decide_and, Bool.and_comm, ne_eq]
    have hkept : ((arrived ++ [waited]).map key).filter (fun k => k ≠ key waited)
        = arrived.map key := by
      rw [List.map_append, List.filter_append, List.map_singleton,
        List.filter_cons_of_neg (by simp), List.filter_nil, List.append_nil]
      refine List.filter_eq_self.mpr fun k hk => ?_
      have hne : k ≠ key waited := fun heq => honce (heq ▸ hk)
      simpa using hne
    calc (arrived ++ [onto a waited]).map key
        = arrived.map key ++ [key a] := by simp [honto]
      _ = (sent.map key).filter (fun k => k ∉ (dropped ++ [waited]).map key) ++ [key a] := by
        rw [hsplit, ← hwhole, hkept]
      _ = ((sent ++ [a]).map key).filter (fun k => k ∉ (dropped ++ [waited]).map key) := by
        rw [show (sent ++ [a]).map key = sent.map key ++ [key a] by simp,
          List.filter_append, List.filter_cons_of_pos (by simpa using hfresh), List.filter_nil]

theorem last_key : arrived.getLast?.map key = sent.getLast?.map key := by
  cases h with
  | nil => rfl
  | last => simp
  | replace => simp [honto]

theorem heavy (heavy : β → Bool) (hheavy : ∀ a, light a → heavy (key a) = false) :
    (arrived.map key).filter heavy = (sent.map key).filter heavy := by
  induction h with
  | nil => rfl
  | last h a ih => rw [List.map_append, List.map_append, List.filter_append, List.filter_append, ih]
  | @replace sent arrived dropped waited h hlight a ih =>
    rw [List.map_append, List.filter_append, List.map_singleton,
      List.filter_cons_of_neg (by simp [hheavy waited hlight]), List.filter_nil,
      List.append_nil] at ih
    rw [List.map_append, List.map_append, List.filter_append, List.filter_append, ih,
      List.map_singleton, List.map_singleton, honto]

end

end Keyed

theorem fold (h : Coalesced light onto sent arrived dropped) (join : β → β → β) (none : β)
    (said : α → β) (hassoc : ∀ a b c, join (join a b) c = join a (join b c))
    (hcomm : ∀ a b, join a b = join b a)
    (honto : ∀ a waited, said (onto a waited) = join (said a) (said waited)) :
    (arrived.map said).foldl join none = (sent.map said).foldl join none := by
  induction h with
  | nil => rfl
  | last h a ih => simp [ih]
  | @replace sent arrived dropped waited h hlight a ih =>
    simp only [List.map_append, List.map_cons, List.map_nil, List.foldl_append, List.foldl_cons,
      List.foldl_nil] at ih ⊢
    rw [← ih, honto, hcomm (said a), hassoc]

end Coalesced

end Rdlt.Lib
