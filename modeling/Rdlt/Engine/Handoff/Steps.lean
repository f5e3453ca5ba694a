/-
  Rdlt.Engine.Handoff.Steps

  What one exchange can do, said once: nothing that shows, a seal reported or
  handed over, a segment let go, a commit collected.
-/

import Rdlt.Engine.Handoff.Places

namespace Rdlt.Engine

open Lib

variable {messages rest : List Progress} {left : Option SegmentId} {waiting : Waiting}

/-! ## What passed -/

variable (trace later : List Handed) (place : Nat)

section

variable (place : Nat) (trace : List Handed)

def Handed.sentBy : Handed → Option Seal
  | .sent _ reported => if reported.partition = place then some reported else none
  | _ => none

def Handed.takenBy : Handed → Option Seal
  | .taken _ handed => if handed.partition = place then some handed else none
  | _ => none

/-- The seal of the partition at `place` that one reported later took the place of. -/
def Handed.droppedBy : Handed → Option Seal
  | .superseded _ dropped => if dropped.partition = place then some dropped else none
  | _ => none

def Handed.spends : Handed → Option SegmentId
  | .sent _ reported => some reported.segment
  | .abandoned _ segment => some segment
  | _ => none

/-- The seals reported of the partition at `place`, in order. -/
def sents (place : Nat) : List Seal := trace.filterMap (·.sentBy place)

def takens (place : Nat) : List Seal := trace.filterMap (·.takenBy place)

/-- The seals of the partition at `place` that others took the place of, in order. -/
def drops (place : Nat) : List Seal := trace.filterMap (·.droppedBy place)

def spent : List SegmentId := trace.filterMap Handed.spends

end

@[simp] theorem sents_append :
    sents (trace ++ later) place = sents trace place ++ sents later place :=
  List.filterMap_append

@[simp] theorem takens_append :
    takens (trace ++ later) place = takens trace place ++ takens later place :=
  List.filterMap_append

@[simp] theorem drops_append :
    drops (trace ++ later) place = drops trace place ++ drops later place :=
  List.filterMap_append

@[simp] theorem spent_append : spent (trace ++ later) = spent trace ++ spent later :=
  List.filterMap_append

/-! ## Segments -/

/-- Each segment is opened once: it is spent, or open at one place, or yet to come. -/
structure Opens (reads : OrdMap Nat (Option SegmentId)) (next : SegmentId)
    (spent : List SegmentId) : Prop where
  once : spent.Nodup
  earlier : ∀ segment ∈ spent, segment < next
  opened : ∀ {place : Nat} {segment : SegmentId}, reads[place]? = some (some segment) →
    segment < next ∧ segment ∉ spent
  apart : ∀ {place other : Nat} {segment : SegmentId}, reads[place]? = some (some segment) →
    reads[other]? = some (some segment) → place = other

namespace Opens

variable {reads : OrdMap Nat (Option SegmentId)} {next segment : SegmentId}
  {spent : List SegmentId} {place : Nat}

theorem getElem?_of_insert {other : Nat}
    (h : (reads.insert place left)[other]? = some (some segment)) :
    (place = other ∧ left = some segment) ∨
    (place ≠ other ∧ reads[other]? = some (some segment)) := by
  rw [OrdMap.getElem?_insert] at h
  split at h
  · next heq => exact .inl ⟨heq, Option.some.inj h⟩
  · next hne => exact .inr ⟨hne, h⟩

section

variable (h : Opens reads next spent)
include h

theorem close : Opens (reads.insert place none) next spent where
  once := h.once
  earlier := h.earlier
  opened := fun hopen => by
    rcases getElem?_of_insert hopen with ⟨-, hnone⟩ | ⟨-, hopen⟩
    · cases hnone
    · exact h.opened hopen
  apart := fun hopen hother => by
    rcases getElem?_of_insert hopen with ⟨-, hnone⟩ | ⟨-, hopen⟩
    · cases hnone
    rcases getElem?_of_insert hother with ⟨-, hnone⟩ | ⟨-, hother⟩
    · cases hnone
    exact h.apart hopen hother

theorem spend (hopen : reads[place]? = some (some segment)) :
    Opens (reads.insert place none) next (spent ++ [segment]) where
  once := by
    rw [List.nodup_append]
    refine ⟨h.once, by simp, fun other hother last hlast heq => (h.opened hopen).2 ?_⟩
    rw [← List.mem_singleton.mp hlast, ← heq]
    exact hother
  earlier := fun other hother => by
    rcases List.mem_append.mp hother with hother | hother
    · exact h.earlier other hother
    · rw [List.mem_singleton.mp hother]
      exact (h.opened hopen).1
  opened := fun {other current} hother => by
    rcases getElem?_of_insert hother with ⟨-, hnone⟩ | ⟨hne, hother⟩
    · cases hnone
    · refine ⟨(h.opened hother).1, fun hmem => ?_⟩
      rcases List.mem_append.mp hmem with hmem | hmem
      · exact (h.opened hother).2 hmem
      · rw [List.mem_singleton.mp hmem] at hother
        exact hne (h.apart hopen hother)
  apart := h.close.apart

theorem erase : Opens (reads.erase place) next spent where
  once := h.once
  earlier := h.earlier
  opened := fun hopen => by
    rw [OrdMap.getElem?_erase] at hopen
    split at hopen
    · cases hopen
    · exact h.opened hopen
  apart := fun hopen hother => by
    rw [OrdMap.getElem?_erase] at hopen hother
    split at hopen
    · cases hopen
    split at hother
    · cases hother
    exact h.apart hopen hother

theorem open_next : Opens (reads.insert place (some next)) (next + 1) spent where
  once := h.once
  earlier := fun segment hsegment => (h.earlier segment hsegment).trans (Nat.lt_succ_self _)
  opened := fun hopen => by
    rcases getElem?_of_insert hopen with ⟨-, heq⟩ | ⟨-, hopen⟩
    · cases heq
      exact ⟨Nat.lt_succ_self _, fun hmem => (h.earlier _ hmem).ne rfl⟩
    · exact ⟨(h.opened hopen).1.trans (Nat.lt_succ_self _), (h.opened hopen).2⟩
  apart := fun hopen hother => by
    rcases getElem?_of_insert hopen with ⟨hplace, heq⟩ | ⟨-, hopen⟩ <;>
      rcases getElem?_of_insert hother with ⟨hplace', heq'⟩ | ⟨-, hother⟩
    · exact hplace.symm.trans hplace'
    · cases heq
      exact absurd (h.opened hother).1 (lt_irrefl _)
    · cases heq'
      exact absurd (h.opened hopen).1 (lt_irrefl _)
    · exact h.apart hopen hother

theorem spend_open (hopen : reads[place]? = some (some segment)) :
    Opens (reads.insert place (some next)) (next + 1) (spent ++ [segment]) := by
  have hsame :
      (reads.insert place none).insert place (some next) = reads.insert place (some next) :=
    OrdMap.ext fun other => by
      simp only [OrdMap.getElem?_insert]
      split <;> rfl
  exact hsame ▸ (h.spend hopen).open_next

end

end Opens

/-! ## Steps -/

namespace Handoff

variable {h' h : Handoff} {place : Nat} {segment : SegmentId} {message : Progress}

/-- The seals of the partition at `place` handed over, and those the queue will hand over. -/
def delivered (h : Handoff) (place : Nat) : List Seal :=
  takens h.trace place ++ due (h.latest.waiting place) h.queue place

structure Sound (h : Handoff) : Prop where
  placed : ∀ place : Nat, Placed (h.latest.waiting place) h.queue h.reads[place]? place
  opens : Opens h.reads h.segments (spent h.trace)

/-- The coordinator keeps the seals it kept, of the streams they were of. -/
structure Keeps (h h' : Handoff) : Prop where
  waiting : h'.coordinator.waiting = h.coordinator.waiting
  sealing : h'.coordinator.sealing = h.coordinator.sealing
  streams : ∀ place ∈ h.coordinator.sealing, h'.streamAt place = h.streamAt place

inductive Passes (h h' : Handoff) : Prop where
  | quiet (trace : h'.trace = h.trace) (keeps : Keeps h h')
      (delivered : ∀ place, h'.delivered place = h.delivered place)
  /-- A seal is reported in place of `waited`. -/
  | sent (stream : Nat) (reported : Seal) (waited : Option Seal) (earlier : List Seal)
      (trace : h'.trace = h.trace ++ .sent stream reported
        :: (waited.map (Handed.superseded stream)).toList)
      (keeps : Keeps h h')
      (fresh : reported.segment ∉ spent h.trace)
      (light : ∀ dropped, waited = some dropped →
        dropped.partition = reported.partition ∧ dropped.movesOnly = true)
      (before : h.delivered reported.partition = earlier ++ waited.toList)
      (after : h'.delivered reported.partition = earlier ++ [reported.answering waited])
      (others : ∀ place, place ≠ reported.partition → h'.delivered place = h.delivered place)
  | abandoned (place : Nat) (segment : SegmentId)
      (trace : h'.trace = h.trace ++ [.abandoned place segment]) (keeps : Keeps h h')
      (fresh : segment ∉ spent h.trace)
      (delivered : ∀ place, h'.delivered place = h.delivered place)
  | taken (handed : Seal)
      (trace : h'.trace = h.trace ++ [.taken (h.streamAt handed.partition) handed])
      (waiting : h'.coordinator.waiting = h.coordinator.waiting.push handed)
      (sealing : h'.coordinator.sealing = insert handed.partition h.coordinator.sealing)
      (streams : ∀ place, h'.streamAt place = h.streamAt place)
      (delivered : ∀ place, h'.delivered place = h.delivered place)
  | collected (trace : h'.trace = h.trace ++ [.collected h.coordinator.collect.1])
      (waiting : h'.coordinator.waiting = {}) (sealing : h'.coordinator.sealing = ∅)
      (delivered : ∀ place, h'.delivered place = h.delivered place)

theorem Keeps.refl (h : Handoff) (hsame : h'.coordinator = h.coordinator) : Keeps h h' :=
  ⟨by rw [hsame], by rw [hsame], fun place _ => by rw [streamAt, hsame]; rfl⟩

/-- What one read reports leaves what holds of the others. -/
theorem Sound.insert (hs : h.Sound) {latest : Latest}
    (hlatest : ∀ other, place ≠ other → latest.waiting other = h.latest.waiting other)
    (hown : ∀ message ∈ messages, message.partition = place)
    (hplaced : Placed (latest.waiting place) (h.queue ++ messages) (some left) place)
    (other : Nat) :
    Placed (latest.waiting other) (h.queue ++ messages)
      (h.reads.insert place left)[other]? other := by
  rw [OrdMap.getElem?_insert]
  by_cases hplace : place = other
  · subst hplace
    rwa [if_pos rfl]
  · rw [if_neg hplace, hlatest other hplace]
    exact (hs.placed other).append fun message hmessage => hown message hmessage ▸ hplace

theorem due_plain (hepochs : epochs messages place = []) (hsealed : sealed messages place = []) :
    due waiting messages place = [] := by
  rw [due_of_notMem (by simp [hepochs]), hsealed]

theorem due_append_plain {queue : List Progress} (hepochs : epochs messages place = [])
    (hsealed : sealed messages place = []) :
    due waiting (queue ++ messages) place = due waiting queue place := by
  rw [due_append, due_plain hepochs hsealed, List.append_nil]

theorem passes_start (hs : h.Sound) (hnone : h.reads[place]? = none) :
    (h.start place).Sound ∧ Passes h (h.start place) := by
  refine ⟨⟨hs.insert (fun _ _ => rfl) (by simp [Progress.partition]) ?_, hs.opens.open_next⟩,
    .quiet rfl (.refl h rfl) fun other => congrArg (takens h.trace other ++ ·) ?_⟩
  · exact ((hnone ▸ hs.placed place).start (some h.segments)).tell (some h.segments) rfl (by simp)
      fun _ => ⟨rfl, by simp [Progress.ends]⟩
  · exact due_append_plain rfl rfl

theorem passes_unread (hs : h.Sound) (hnone : h.reads[place]? = none) :
    (h.unread place).Sound ∧ Passes h (h.unread place) := by
  refine ⟨⟨hs.insert (fun _ _ => rfl) (by simp [Progress.partition]) ?_, hs.opens.close⟩,
    .quiet rfl (.refl h rfl) fun other => congrArg (takens h.trace other ++ ·) ?_⟩
  · exact ((hnone ▸ hs.placed place).start (some 0)).tell none rfl (by simp) (by simp)
  · exact due_append_plain rfl rfl

theorem passes_reset (hs : h.Sound) (hopen : h.reads[place]? = some (some segment)) :
    (h.reset place segment).Sound ∧ Passes h (h.reset place segment) := by
  refine ⟨⟨hs.insert (fun _ _ => rfl) (by simp [Progress.partition]) ?_, ?_⟩,
    .abandoned place segment rfl (.refl h rfl) (hs.opens.opened hopen).2 fun other => ?_⟩
  · exact (hopen ▸ hs.placed place).tell (some h.segments) rfl (by simp)
      fun _ => ⟨rfl, by simp [Progress.ends]⟩
  · show Opens _ _ (spent (h.trace ++ [.abandoned place segment]))
    rw [spent_append]
    exact hs.opens.spend_open hopen
  · show takens (h.trace ++ [.abandoned place segment]) other
      ++ due _ (h.queue ++ [.abandoned place segment]) other = _
    rw [due_append_plain rfl rfl, takens_append,
      show takens [.abandoned place segment] other = [] from rfl, List.append_nil]
    rfl

theorem takens_superseded (stream other : Nat) (reported : Seal) (waited : Option Seal) :
    takens (.sent stream reported :: (waited.map (Handed.superseded stream)).toList)
      other = [] := by
  cases waited <;> rfl

theorem spent_superseded (stream : Nat) (reported : Seal) (waited : Option Seal) :
    spent (.sent stream reported :: (waited.map (Handed.superseded stream)).toList)
      = [reported.segment] := by
  cases waited <;> rfl

theorem passes_checkpoint (hs : h.Sound)
    (hopen : h.reads[place]? = some (some segment)) (counts : Counts) (cursor : Cursor)
    (answers : Option Nat) : (h.checkpoint place segment counts cursor answers).Sound ∧
      Passes h (h.checkpoint place segment counts cursor answers) := by
  set reported : Seal := { partition := place, segment, state := .cursor cursor, answers, counts }
    with hreported
  have hplaced : Placed (h.latest.waiting place) h.queue (some (some segment)) place :=
    hopen ▸ hs.placed place
  obtain ⟨messages, left, hposting⟩ : ∃ messages left,
      Posting h.latest h.queue reported (h.latest.waiting place) messages left :=
    exists_posting rfl hplaced.posted (hplaced.last segment rfl)
  have hqueue : (h.checkpoint place segment counts cursor answers).queue = h.queue ++ messages :=
    congrArg Prod.snd hposting.posting
  have hlatest : (h.checkpoint place segment counts cursor answers).latest
      = h.latest.insert place left := congrArg Prod.fst hposting.posting
  have htrace : (h.checkpoint place segment counts cursor answers).trace
      = h.trace ++ .sent (h.streamAt place) reported
        :: ((h.latest.waiting place).newest.map (Handed.superseded (h.streamAt place))).toList :=
          rfl
  have hreads : (h.checkpoint place segment counts cursor answers).reads
      = h.reads.insert place (some h.segments) := rfl
  refine ⟨⟨?_, ?_⟩, .sent (h.streamAt place) reported (h.latest.waiting place).newest
    (takens h.trace place ++ sealed h.queue place) htrace (.refl h rfl) (hs.opens.opened hopen).2
    hplaced.newest ?_ ?_ fun other hne => ?_⟩
  · rw [hqueue, hlatest, hreads]
    refine hs.insert (fun other hne => by rw [Latest.waiting_insert, if_neg hne]) hposting.own ?_
    rw [Latest.waiting_insert, if_pos rfl]
    exact hplaced.report hposting h.segments
  · rw [htrace, spent_append, spent_superseded]
    exact hs.opens.spend_open hopen
  · show takens h.trace place ++ due _ h.queue place = _
    rw [due_of_last hplaced.posted (hplaced.last segment rfl), List.append_assoc]
  · show delivered _ place = _
    rw [delivered, hqueue, hlatest, htrace, takens_append, takens_superseded, List.append_nil,
      Latest.waiting_insert, if_pos rfl, List.append_assoc]
    exact congrArg _ hposting.due
  · have hother : ∀ message ∈ messages, message.partition ≠ other := fun message hmessage heq =>
      hne (heq.symm.trans (hposting.own message hmessage))
    rw [delivered, hqueue, hlatest, htrace, takens_append, takens_superseded, List.append_nil,
      Latest.waiting_insert, if_neg (Ne.symm hne), due_append, due_of_ne hother, List.append_nil]
    rfl

theorem passes_finish (hs : h.Sound)
    (hopen : h.reads[place]? = some (some segment)) (counts : Counts)
    (state : Option PartitionState) (stopped : Bool) :
    (h.finish place segment counts state stopped).Sound ∧
      Passes h (h.finish place segment counts state stopped) := by
  have hplaced : Placed (h.latest.waiting place) h.queue (some (some segment)) place :=
    hopen ▸ hs.placed place
  -- the end of the read is said last, and says nothing of a seal
  have hended : ∀ message : Progress, message.ends place = false →
      [message, .ended place stopped].Pairwise fun earlier later => earlier.ends place = true →
        later.partition ≠ place := fun message hmessage => by
    simp [hmessage]
  have hdue : ∀ (waiting : Waiting) (message : Progress) (other : Nat),
      due waiting [message, .ended place stopped] other = (message.due waiting other).toList := by
    intro waiting message other
    rw [due_cons, due_plain (show epochs [.ended place stopped] other = [] from rfl) rfl,
      List.append_nil]
  cases state with
  | some state =>
    set reported : Seal := { partition := place, segment, state, counts } with hreported
    have hqueue : (h.finish place segment counts (some state) stopped).queue
        = h.queue ++ [.sealed reported, .ended place stopped] := rfl
    have htrace : (h.finish place segment counts (some state) stopped).trace
        = h.trace ++ [.sent (h.streamAt place) reported] := rfl
    refine ⟨⟨hs.insert (fun _ _ => rfl) (by simp [Progress.partition])
      (hplaced.tell none rfl (hended _ rfl) nofun), ?_⟩, .sent (h.streamAt place) reported none
      (h.delivered place) htrace (.refl h rfl) (hs.opens.opened hopen).2 nofun
      (List.append_nil _).symm ?_ fun other hne => ?_⟩
    · rw [htrace, spent_append]
      exact hs.opens.spend hopen
    · have hseal : (Progress.sealed reported).due (h.latest.waiting place) place
          = some reported := by
        simp [Progress.due, Progress.epochOf, Progress.sealOf, hreported]
      show takens (h.trace ++ [.sent (h.streamAt place) reported]) place
        ++ due (h.latest.waiting place) (h.queue ++ [.sealed reported, .ended place stopped]) place
        = _
      rw [takens_append, due_append, hdue, hseal, delivered]
      simp [takens, Handed.takenBy, Seal.answering, later, hreported]
    · have hseal : (Progress.sealed reported).due (h.latest.waiting other) other = none := by
        simp [Progress.due, Progress.epochOf, Progress.sealOf, Ne.symm hne]
      show takens (h.trace ++ [.sent (h.streamAt place) reported]) other
        ++ due (h.latest.waiting other) (h.queue ++ [.sealed reported, .ended place stopped]) other
        = _
      rw [takens_append, due_append, hdue, hseal, delivered]
      simp [takens, Handed.takenBy]
  | none =>
    refine ⟨⟨hs.insert (fun _ _ => rfl) (by simp [Progress.partition])
      (hplaced.tell none rfl (hended _ rfl) nofun), ?_⟩, .abandoned place segment rfl (.refl h rfl)
      (hs.opens.opened hopen).2 fun other => ?_⟩
    · show Opens _ _ (spent (h.trace ++ [.abandoned place segment]))
      rw [spent_append]
      exact hs.opens.spend hopen
    · show takens (h.trace ++ [.abandoned place segment]) other
        ++ due (h.latest.waiting other)
          (h.queue ++ [.abandoned place segment, .ended place stopped]) other = _
      rw [due_append, hdue, takens_append]
      simp [takens, Handed.takenBy, Progress.due, Progress.epochOf, Progress.sealOf, delivered]

/-! ## What the coordinator does -/

theorem getElem?_heard (reads : OrdMap Nat (Option SegmentId)) (message : Progress)
    (place : Nat) : (heard reads message)[place]? = Placed.left reads[place]? message place := by
  cases message with
  | ended partition stopped =>
    simp only [heard, Placed.left, Progress.ends, OrdMap.getElem?_erase, decide_eq_true_eq]
  | _ => rfl

/-- What the coordinator keeps once it took a message that hands over no seal. -/
theorem keeps_observe (hnone : handed h.latest message = none) : Keeps h (h.take message rest) := by
  cases message with
  | sealed reported => cases hnone
  | moved partition epoch =>
    have hsame : (h.take (.moved partition epoch) rest).coordinator = h.coordinator := by
      have hnone : (h.latest.takeSeal partition epoch).1 = none := hnone
      simp only [take, Coordinator.observe, hnone]
    exact .refl h hsame
  | ended partition stopped =>
    refine ⟨?_, ?_, fun place _ => ?_⟩ <;>
      simp only [take, Coordinator.observe, Coordinator.ended, streamAt] <;> split <;> try rfl
    next run hrun =>
      simp only [List.getElem?_set]
      split
      · next heq =>
          subst heq
          split
          · simp [hrun]
          · next hbound => simp [List.getElem?_eq_none (Nat.not_lt.mp hbound)]
      · rfl
  | started partition => exact ⟨rfl, rfl, fun _ _ => rfl⟩
  | abandoned partition segment => exact ⟨rfl, rfl, fun _ _ => rfl⟩

theorem observe_handed {taken : Seal} (hsome : handed h.latest message = some taken) :
    (h.coordinator.observe h.latest message).1 = h.coordinator.sealed taken := by
  cases message with
  | sealed reported =>
    cases hsome
    rfl
  | moved partition epoch =>
    have hsome : (h.latest.takeSeal partition epoch).1 = some taken := hsome
    simp only [Coordinator.observe, hsome]
  | _ => cases hsome

theorem passes_take (hs : h.Sound) (hqueue : h.queue = message :: rest) :
    (h.take message rest).Sound ∧ Passes h (h.take message rest) := by
  have htakes : ∀ place, Takes h.latest message rest place := fun place =>
    takes (hqueue ▸ (hs.placed place).posted) fun other newest hnewest =>
      ((hs.placed other).newest newest hnewest).1
  have hlatest : (h.take message rest).latest = h.latest.after message := observe_snd ..
  have htrace : (h.take message rest).trace = h.trace ++ ((handed h.latest message).map
      fun taken => Handed.taken (h.streamAt taken.partition) taken).toList := rfl
  have hdelivered : ∀ place, (h.take message rest).delivered place = h.delivered place := by
    intro place
    rw [delivered, delivered, hlatest, htrace, hqueue, (htakes place).due, takens_append,
      List.append_assoc]
    cases handed h.latest message with
    | none => rfl
    | some taken =>
      by_cases hplace : taken.partition = place <;>
        simp [takens, Handed.takenBy, Option.filter, hplace] <;> rfl
  refine ⟨⟨fun place => ?_, ?_⟩, ?_⟩
  · rw [hlatest]
    show Placed _ rest (heard h.reads message)[place]? place
    rw [getElem?_heard]
    exact Placed.take (hqueue ▸ hs.placed place) (htakes place)
  · have hspent : spent (h.take message rest).trace = spent h.trace := by
      rw [htrace, spent_append]
      cases handed h.latest message <;> simp [spent, Handed.spends]
    rw [hspent]
    cases message with
    | ended partition stopped => exact hs.opens.erase
    | _ => exact hs.opens
  · cases hhanded : handed h.latest message with
    | none =>
      refine .quiet ?_ (keeps_observe hhanded) hdelivered
      simp [htrace, hhanded]
    | some taken =>
      have hcoordinator : (h.take message rest).coordinator = h.coordinator.sealed taken :=
        observe_handed hhanded
      refine .taken taken ?_ ?_ ?_ (fun place => ?_) hdelivered
      · simp [htrace, hhanded]
      · rw [hcoordinator]
        rfl
      · rw [hcoordinator]
        rfl
      · rw [streamAt, hcoordinator]
        rfl

theorem passes_launch (hs : h.Sound) {stream : Nat} {id : PartitionId}
    {cursor : Option Cursor} (hfree : h.free (h.coordinator.place stream id).1) :
    (h.launch stream id cursor).Sound ∧ Passes h (h.launch stream id cursor) := by
  refine ⟨⟨hs.placed, hs.opens⟩, .quiet rfl ⟨rfl, rfl, fun place hplace => ?_⟩ fun _ => rfl⟩
  have hother : (h.coordinator.place stream id).1 ≠ place := fun heq => hfree.2.1 (heq ▸ hplace)
  simp only [streamAt, launch, Coordinator.placing]
  rcases hfree.2.2 with hnew | hended
  · rw [if_neg (by omega), List.getElem?_append]
    split
    · rfl
    · rename_i hpast
      rw [List.getElem?_eq_none (by simp; omega), List.getElem?_eq_none (by omega)]
  · have hbound : (h.coordinator.place stream id).1 < h.coordinator.partitions.length := by
      by_contra hpast
      simp [Coordinator.endedAt, List.getElem?_eq_none (Nat.not_lt.mp hpast)] at hended
    rw [if_pos hbound, List.getElem?_set_ne hother]

theorem passes_collect (hs : h.Sound) : h.collect.Sound ∧ Passes h h.collect := by
  have hspent : spent h.collect.trace = spent h.trace := by
    show spent (h.trace ++ [_]) = _
    simp [spent, Handed.spends]
  refine ⟨⟨hs.placed, hspent ▸ hs.opens⟩, .collected rfl rfl rfl fun place => ?_⟩
  show takens (h.trace ++ [_]) place ++ _ = _
  simp [takens, Handed.takenBy, delivered, collect]

theorem passes {exchange : Exchange} (hs : h.Sound)
    (hstep : h.step exchange = some h') : h'.Sound ∧ Passes h h' := by
  cases exchange with
  | start place =>
    simp only [step] at hstep
    split at hstep
    · rename_i hexpected
      cases hstep
      exact passes_start hs hexpected.1
    · cases hstep
  | unread place =>
    simp only [step] at hstep
    split at hstep
    · rename_i hexpected
      cases hstep
      exact passes_unread hs hexpected.1
    · cases hstep
  | checkpoint place counts cursor answers =>
    obtain ⟨segment, hopen, rfl⟩ := Option.map_eq_some_iff.mp hstep
    exact passes_checkpoint hs (Option.join_eq_some_iff.mp hopen) counts cursor answers
  | reset place =>
    obtain ⟨segment, hopen, rfl⟩ := Option.map_eq_some_iff.mp hstep
    exact passes_reset hs (Option.join_eq_some_iff.mp hopen)
  | finish place counts state stopped =>
    simp only [step] at hstep
    split at hstep
    · cases hstep
    · obtain ⟨segment, hopen, rfl⟩ := Option.map_eq_some_iff.mp hstep
      exact passes_finish hs (Option.join_eq_some_iff.mp hopen) counts state stopped
  | take =>
    obtain ⟨message, hhead, rfl⟩ := Option.map_eq_some_iff.mp hstep
    exact passes_take hs (List.eq_cons_of_mem_head? hhead)
  | launch stream id cursor =>
    simp only [step] at hstep
    split at hstep
    · rename_i hfree
      cases hstep
      exact passes_launch hs hfree
    · cases hstep
  | collect =>
    cases hstep
    exact passes_collect hs

/-! ## Runs -/

def opened (c : Coordinator) : Handoff :=
  { coordinator := { c with waiting := {}, sealing := ∅ } }

theorem sound_opened (c : Coordinator) : (opened c).Sound where
  placed := fun place => by
    refine ⟨⟨?_, ?_, List.nodup_nil, by simp [opened, epochs], ?_⟩, ?_, ?_, by simp [opened],
      by simp [opened], List.Pairwise.nil⟩ <;>
      simp [opened, epochs, Latest.waiting, Std.ExtTreeMap.getD_eq_getD_getElem?]
  opens := ⟨List.nodup_nil, by simp [opened, spent], by simp [opened], by simp [opened]⟩

theorem run_induction {P : Handoff → Prop} {exchanges : List Exchange} (hs : h.Sound) (hP : P h)
    (hpasses : ∀ {k k' : Handoff}, k.Sound → k'.Sound → Passes k k' → P k → P k')
    (hrun : h.run exchanges = some h') : h'.Sound ∧ P h' := by
  induction exchanges generalizing h with
  | nil =>
    cases hrun
    exact ⟨hs, hP⟩
  | cons exchange exchanges ih =>
    obtain ⟨next, hstep, hrest⟩ := Option.bind_eq_some_iff.mp hrun
    obtain ⟨hnext, hpassed⟩ := passes hs hstep
    exact ih hnext (hpasses hs hnext hpassed hP) hrest

theorem exists_run (c : Coordinator) (exchanges : List Exchange) (p : Handoff → Bool)
    (h : ((opened c).run exchanges).any p = true) :
    ∃ last, (opened c).run exchanges = some last ∧ p last = true := by
  cases hrun : (opened c).run exchanges with
  | none => simp [hrun] at h
  | some last => exact ⟨last, rfl, by simpa [hrun] using h⟩

end Handoff

/-- One stream of one partition, whose read has not started. -/
def lonePartition : Coordinator where
  streams := [{ name := "orders", remaining := 1 }]
  partitions := [PartitionRun.starting 0 "all" none]
  epoch := 0
  unended := 1

end Rdlt.Engine
