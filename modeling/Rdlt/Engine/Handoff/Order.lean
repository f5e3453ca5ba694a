/-
  Rdlt.Engine.Handoff.Order

  The mailbox delivers in order. What arrives of a partition's seals is what it
  reported, each with rows in its place, and each of no rows unless the seal
  reported next took its place, with the barrier it answered.
-/

import Rdlt.Engine.Handoff.Steps
import Rdlt.Lib.Coalesce

namespace Rdlt.Engine

/-! ## Barriers -/

variable (stream place : Nat) (reported : Seal) (waited : Option Seal)

theorem later_comm (left right : Option Nat) : later left right = later right left := by
  cases left <;> cases right <;> simp [later, max_comm]

theorem later_assoc (a b c : Option Nat) : later (later a b) c = later a (later b c) := by
  cases a <;> cases b <;> cases c <;> simp [later, max_assoc]

def greatest (seals : List Seal) : Option Nat := (seals.map Seal.answers).foldl later none

theorem exists_of_greatest {seals : List Seal} {barrier : Nat} (h : greatest seals = some barrier) :
    ∃ answering ∈ seals, answering.answers = some barrier := by
  induction seals using List.reverseRecOn generalizing barrier with
  | nil => cases h
  | append_singleton seals last ih =>
    have hsplit : later (greatest seals) last.answers = some barrier := by
      simpa [greatest] using h
    have hone : last.answers = some barrier ∨ greatest seals = some barrier := by
      cases hgreatest : greatest seals <;> cases hlast : last.answers <;>
        simp only [hgreatest, hlast, later, Option.some.injEq, reduceCtorEq] at hsplit ⊢
      · exact .inl hsplit
      · exact .inr hsplit
      · omega
    rcases hone with hlast | hearlier
    · exact ⟨last, by simp, hlast⟩
    · obtain ⟨answering, hmem, hanswers⟩ := ih hearlier
      exact ⟨answering, List.mem_append_left _ hmem, hanswers⟩

/-! ## What arrives -/

def Seal.unanswered (reported : Seal) : Seal := { reported with answers := none }

abbrev Arrives (reported arrived dropped : List Seal) : Prop :=
  Lib.Coalesced (fun waited => waited.movesOnly = true)
    (fun next waited => next.answering (some waited))
    reported arrived dropped

/-- Of each partition, what was handed over and what the queue will hand over is what arrives of
    what was reported. -/
def Handoff.Ordered (h : Handoff) : Prop :=
  ∀ place, Arrives (sents h.trace place) (h.delivered place) (drops h.trace place)

theorem Seal.answering_none : reported.answering none = reported := by
  cases reported with
  | mk partition segment state answers counts => cases answers <;> rfl

theorem sents_superseded :
    sents (.sent stream reported :: (waited.map (Handed.superseded stream)).toList) place
      = if reported.partition = place then [reported] else [] := by
  cases waited <;> by_cases hplace : reported.partition = place <;>
    simp [sents, Handed.sentBy, hplace]

theorem drops_superseded
    (hown : ∀ dropped, waited = some dropped → dropped.partition = reported.partition) :
    drops (.sent stream reported :: (waited.map (Handed.superseded stream)).toList) place
      = if reported.partition = place then waited.toList else [] := by
  cases waited with
  | none => simp [drops, Handed.droppedBy]
  | some dropped =>
    by_cases hplace : reported.partition = place <;>
      simp [drops, Handed.droppedBy, hown dropped rfl, hplace]

theorem Handoff.Ordered.same {h h' : Handoff} (hordered : h.Ordered) {passed : List Handed}
    (htrace : h'.trace = h.trace ++ passed) (hsents : ∀ place, sents passed place = [])
    (hdrops : ∀ place, drops passed place = [])
    (hdelivered : ∀ place, h'.delivered place = h.delivered place) : h'.Ordered := by
  intro place
  rw [htrace, hdelivered, sents_append, drops_append, hsents, hdrops, List.append_nil,
    List.append_nil]
  exact hordered place

theorem Handoff.Ordered.step {h h' : Handoff} (hordered : h.Ordered) (hpasses : Passes h h') :
    h'.Ordered := by
  cases hpasses with
  | quiet trace keeps delivered =>
    exact hordered.same (trace.trans (List.append_nil _).symm) (fun _ => rfl)
      (fun _ => rfl) delivered
  | abandoned other segment trace keeps fresh delivered =>
    exact hordered.same trace (fun _ => rfl) (fun _ => rfl) delivered
  | taken handed trace waiting sealing streams delivered =>
    exact hordered.same trace (fun _ => rfl) (fun _ => rfl) delivered
  | collected trace waiting sealing delivered =>
    exact hordered.same trace (fun _ => rfl) (fun _ => rfl) delivered
  | sent stream reported waited earlier trace keeps fresh light before after others =>
    intro place
    rw [trace, sents_append, sents_superseded, drops_append,
      drops_superseded _ _ _ _ fun dropped hdropped => (light dropped hdropped).1]
    by_cases hplace : reported.partition = place
    · subst hplace
      have harrives := hordered reported.partition
      rw [before] at harrives
      rw [if_pos rfl, if_pos rfl, after]
      cases waited with
      | none =>
        rw [Seal.answering_none, Option.toList_none, List.append_nil]
        exact (List.append_nil earlier ▸ harrives).last reported
      | some dropped => exact harrives.replace (light dropped rfl).2 reported
    · rw [if_neg hplace, if_neg hplace, List.append_nil, List.append_nil,
        others place (Ne.symm hplace)]
      exact hordered place

theorem Handoff.ordered_run {c : Coordinator} {exchanges : List Exchange} {h : Handoff}
    (hrun : (Handoff.opened c).run exchanges = some h) : h.Sound ∧ h.Ordered :=
  Handoff.run_induction (Handoff.sound_opened c) (fun _ => Lib.Coalesced.nil)
    (fun _ _ hpasses hordered => hordered.step hpasses) hrun

/-! ## What the coordinator received -/

theorem nodup_sents {trace : List Handed} (h : (spent trace).Nodup) (place : Nat) :
    ((sents trace place).map Seal.segment).Nodup := by
  refine h.sublist ?_
  clear h
  rw [sents, spent, List.filterMap_eq_flatMap_toList, List.filterMap_eq_flatMap_toList,
    List.map_flatMap]
  induction trace with
  | nil => exact .slnil
  | cons passed trace ih =>
    rw [List.flatMap_cons, List.flatMap_cons]
    refine List.Sublist.append ?_ ih
    cases passed with
    | sent stream reported =>
      by_cases hplace : reported.partition = place <;>
        simp [Handed.sentBy, Handed.spends, hplace]
    | _ => exact List.nil_sublist _

/-- The coordinator received `received` of the seals `reported`: in the order they were reported,
    the last of them the last, each with rows among them, and the barriers answered. -/
structure Received (reported received : List Seal) : Prop where
  order : (received.map Seal.unanswered).Sublist (reported.map Seal.unanswered)
  rows : (received.map Seal.unanswered).filter (!·.movesOnly)
    = (reported.map Seal.unanswered).filter (!·.movesOnly)
  last : received.getLast?.map Seal.unanswered = reported.getLast?.map Seal.unanswered
  barrier : greatest received = greatest reported

theorem Seal.unanswered_answering (next waited : Seal) :
    (next.answering (some waited)).unanswered = next.unanswered := rfl

theorem Seal.segment_answering (next waited : Seal) :
    (next.answering (some waited)).segment = next.segment := rfl

theorem received_of_arrives {reported arrived dropped : List Seal}
    (h : Arrives reported arrived dropped) : Received reported arrived where
  order := h.sublist Seal.unanswered_answering
  rows := h.heavy Seal.unanswered_answering (fun next => !next.movesOnly) fun waited hlight => by
    show (!waited.movesOnly) = false
    rw [show waited.movesOnly = true from hlight]
    rfl
  last := h.last_key Seal.unanswered_answering
  barrier := h.fold later none Seal.answers later_assoc later_comm fun _ _ => rfl

theorem count_moved_le {queue : List Progress} {place : Nat} (h : (epochs queue place).Nodup)
    (epoch : Nat) : queue.count (.moved place epoch) ≤ 1 := by
  have hcount : queue.count (.moved place epoch) ≤ (epochs queue place).count epoch := by
    clear h
    induction queue with
    | nil => simp
    | cons message queue ih =>
      rw [epochs_cons, List.count_append, List.count_cons]
      by_cases hmessage : message = .moved place epoch
      · subst hmessage
        simp [Progress.epochOf]
        omega
      · simp [hmessage]
        omega
  exact hcount.trans (List.nodup_iff_count_le_one.mp h epoch)

/-- The mailbox delivers in order. What the coordinator has received of a partition is the first of
    what was reported and not dropped for a seal reported next, with all of it once nothing of the
    partition is queued. Whenever it received a seal, it had received every seal with rows reported
    before it, and seals that answer the greatest barrier so far. No two messages queued in one
    epoch say that a seal waits. -/
theorem received_in_order (c : Coordinator) (exchanges : List Exchange) (h : Handoff)
    (hrun : (Handoff.opened c).run exchanges = some h) (place : Nat) : (∃ pending : List SegmentId,
      (takens h.trace place).map Seal.segment ++ pending
        = ((sents h.trace place).map Seal.segment).filter
            (fun segment => segment ∉ (drops h.trace place).map Seal.segment) ∧
      ((∀ message ∈ h.queue, message.partition ≠ place) → pending = [])) ∧
    (∀ received rest, takens h.trace place = received ++ rest →
      ∃ reported later, sents h.trace place = reported ++ later ∧ Received reported received) ∧
    (∀ epoch, h.queue.count (.moved place epoch) ≤ 1) ∧
    ((∀ message ∈ h.queue, message.partition ≠ place) →
      Received (sents h.trace place) (takens h.trace place) ∧
      ∀ barrier, greatest (sents h.trace place) = some barrier →
        ∃ answering ∈ takens h.trace place, answering.answers = some barrier) := by
  obtain ⟨hsound, hordered⟩ := Handoff.ordered_run hrun
  refine ⟨⟨(due (h.latest.waiting place) h.queue place).map Seal.segment, ?_, fun hdrained => ?_⟩,
    fun received rest hreceived => ?_, count_moved_le (hsound.placed place).posted.once,
    fun hdrained => ?_⟩
  · rw [← List.map_append]
    exact (hordered place).eq_filter Seal.segment_answering (nodup_sents hsound.opens.once place)
  · rw [due_of_ne hdrained]
    rfl
  · have hdelivered : h.delivered place
        = received ++ (rest ++ due (h.latest.waiting place) h.queue place) := by
      rw [Handoff.delivered, hreceived, List.append_assoc]
    obtain ⟨reported, later, _, _, hreported, harrives, -⟩ := (hordered place).split hdelivered
    exact ⟨reported, later, hreported, received_of_arrives harrives⟩
  · have harrives := hordered place
    rw [Handoff.delivered, due_of_ne hdrained, List.append_nil] at harrives
    have hreceived := received_of_arrives harrives
    exact ⟨hreceived, fun barrier hbarrier =>
      exists_of_greatest (hreceived.barrier.trans hbarrier)⟩

/-- A read moves twice, the first time answering a barrier, seals a row and ends where it stands. -/
def movingExchanges : List Exchange :=
  [.start 0, .checkpoint 0 {} [1] (some 4), .checkpoint 0 {} [2] none, .take, .take,
    .checkpoint 0 { rows := 1, bytes := 8 } [3] none, .checkpoint 0 {} [4] none,
    .finish 0 {} (some (.cursor [4])) false, .take, .take, .take, .take]

theorem received_in_order_moving :
    ∃ h, (Handoff.opened lonePartition).run movingExchanges = some h ∧
      (sents h.trace 0).length = 5 ∧ (takens h.trace 0).length = 4 ∧
      Received (sents h.trace 0) (takens h.trace 0) ∧
      ∀ barrier, greatest (sents h.trace 0) = some barrier →
        ∃ answering ∈ takens h.trace 0, answering.answers = some barrier := by
  obtain ⟨h, hrun, hpassed⟩ := Handoff.exists_run lonePartition movingExchanges
    (fun h => decide ((sents h.trace 0).length = 5 ∧ (takens h.trace 0).length = 4 ∧ h.queue = []))
    (by decide +kernel)
  obtain ⟨hsents, htakens, hqueue⟩ := of_decide_eq_true hpassed
  obtain ⟨-, -, -, hdrained⟩ := received_in_order lonePartition movingExchanges h hrun 0
  exact ⟨h, hrun, hsents, htakens, hdrained (by simp [hqueue])⟩

end Rdlt.Engine
