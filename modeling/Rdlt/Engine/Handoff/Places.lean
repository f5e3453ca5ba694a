/-
  Rdlt.Engine.Handoff.Places

  What holds of a place as its read and the coordinator exchange messages: its
  mailbox stands as its messages say, nothing of it is queued where no read is
  there, and nothing is queued after the end of its read.
-/

import Rdlt.Engine.Handoff.Mailbox

namespace Rdlt.Engine

variable {message : Progress} {place : Nat} {messages : List Progress}

/-! ## A place -/

/-- The mailbox of `place` and the queue as the read there leaves them. -/
structure Placed (waiting : Waiting) (queue : List Progress) (read : Option (Option SegmentId))
    (place : Nat) : Prop where
  posted : Posted waiting (epochs queue place)
  newest : ∀ newest, waiting.newest = some newest →
    newest.partition = place ∧ newest.movesOnly = true
  last : ∀ segment, read = some (some segment) → Last waiting queue place
  going : ∀ segment, read = some (some segment) → ∀ message ∈ queue, message.ends place = false
  idle : read = none → ∀ message ∈ queue, message.partition ≠ place
  ended : queue.Pairwise fun earlier later => earlier.ends place = true → later.partition ≠ place

theorem Progress.partition_of_ends (h : message.ends place = true) : message.partition = place := by
  cases message with
  | ended partition stopped => simpa [Progress.ends, Progress.partition] using h
  | _ => cases h

theorem Progress.sealOf_of_ne (h : message.partition ≠ place) : message.sealOf place = none := by
  cases message with
  | sealed reported => exact if_neg h
  | _ => rfl

theorem Progress.epochOf_of_ne (h : message.partition ≠ place) : message.epochOf place = none := by
  cases message with
  | moved partition epoch => exact if_neg h
  | _ => rfl

theorem sealed_of_ne
    (h : ∀ message ∈ messages, message.partition ≠ place) : sealed messages place = [] :=
  List.filterMap_eq_nil_iff.mpr fun message hmessage => Progress.sealOf_of_ne (h message hmessage)

theorem epochs_of_ne
    (h : ∀ message ∈ messages, message.partition ≠ place) : epochs messages place = [] :=
  List.filterMap_eq_nil_iff.mpr fun message hmessage => Progress.epochOf_of_ne (h message hmessage)

theorem due_of_ne {waiting : Waiting}
    (h : ∀ message ∈ messages, message.partition ≠ place) : due waiting messages place = [] := by
  rw [due_of_notMem (by simp [epochs_of_ne h]), sealed_of_ne h]

namespace Placed

variable {waiting : Waiting} {queue messages : List Progress} {read : Option (Option SegmentId)}
  {place : Nat}

theorem append (h : Placed waiting queue read place)
    (hother : ∀ message ∈ messages, message.partition ≠ place) :
    Placed waiting (queue ++ messages) read place where
  posted := by
    rw [epochs_append, epochs_of_ne hother, List.append_nil]
    exact h.posted
  newest := h.newest
  last := fun segment hread =>
    (h.last segment hread).append (epochs_of_ne hother) (sealed_of_ne hother)
  going := fun segment hread message hmessage => by
    rcases List.mem_append.mp hmessage with hmessage | hmessage
    · exact h.going segment hread message hmessage
    · exact Bool.eq_false_iff.mpr fun hends =>
        hother message hmessage (Progress.partition_of_ends hends)
  idle := fun hread message hmessage =>
    (List.mem_append.mp hmessage).elim (h.idle hread message) (hother message)
  ended := List.pairwise_append.mpr ⟨h.ended,
    List.pairwise_of_forall_mem_list fun _ _ later hlater _ => hother later hlater,
    fun _ _ later hlater _ => hother later hlater⟩

theorem start (h : Placed waiting queue none place) (left : Option SegmentId) :
    Placed waiting queue (some left) place where
  posted := h.posted
  newest := h.newest
  last := fun _ _ hqueued => by
    rw [epochs_of_ne (h.idle rfl)] at hqueued
    cases hqueued
  going := fun _ _ message hmessage => Bool.eq_false_iff.mpr fun hends =>
    h.idle rfl message hmessage (Progress.partition_of_ends hends)
  idle := fun hread => by cases hread
  ended := h.ended

/-- The read at a place tells the coordinator what does not say that a seal waits. A read still open
    seals nothing so, and does not say it ended. -/
theorem tell {segment : SegmentId} (h : Placed waiting queue (some (some segment)) place)
    (left : Option SegmentId) (hepochs : epochs messages place = [])
    (hended : messages.Pairwise fun earlier later => earlier.ends place = true →
      later.partition ≠ place)
    (hopen : left.isSome = true → sealed messages place = [] ∧
      ∀ message ∈ messages, message.ends place = false) :
    Placed waiting (queue ++ messages) (some left) place where
  posted := by
    rw [epochs_append, hepochs, List.append_nil]
    exact h.posted
  newest := h.newest
  last := fun _ hread => by
    cases hread
    exact (h.last segment rfl).append hepochs (hopen rfl).1
  going := fun _ hread message hmessage => by
    cases hread
    rcases List.mem_append.mp hmessage with hmessage | hmessage
    · exact h.going segment rfl message hmessage
    · exact (hopen rfl).2 message hmessage
  idle := fun hread => by cases hread
  ended := List.pairwise_append.mpr ⟨h.ended, hended, fun earlier hearlier _ _ hends => by
    rw [h.going segment rfl earlier hearlier] at hends
    cases hends⟩

theorem report {latest : Latest} {reported : Seal} {left : Waiting} {segment : SegmentId}
    (h : Placed waiting queue (some (some segment)) reported.partition)
    (hreported : Posting latest queue reported waiting messages left) (next : SegmentId) :
    Placed left (queue ++ messages) (some (some next)) reported.partition where
  posted := hreported.posted
  newest := hreported.newest
  last := fun _ _ => hreported.last
  going := fun _ _ message hmessage => by
    rcases List.mem_append.mp hmessage with hmessage | hmessage
    · exact h.going segment rfl message hmessage
    · exact hreported.going message hmessage
  idle := fun hread => by cases hread
  ended := by
    refine List.pairwise_append.mpr ⟨h.ended, ?_, fun earlier hearlier _ _ hends => ?_⟩
    · refine List.pairwise_of_forall_mem_list fun earlier hearlier _ _ hends => ?_
      rw [hreported.going earlier hearlier] at hends
      cases hends
    · rw [h.going segment rfl earlier hearlier] at hends
      cases hends

def left (read : Option (Option SegmentId)) (message : Progress) (place : Nat) :
    Option (Option SegmentId) :=
  if message.ends place then none else read

theorem take {latest : Latest} {message : Progress}
    (h : Placed (latest.waiting place) (message :: queue) read place)
    (htakes : Takes latest message queue place) :
    Placed ((latest.after message).waiting place) queue (left read message place) place where
  posted := htakes.posted
  newest := fun newest hnewest => h.newest newest (htakes.newest newest hnewest)
  last := fun segment hread => by
    unfold left at hread
    split at hread
    · cases hread
    · exact htakes.last (h.last segment hread)
  going := fun segment hread later hlater => by
    unfold left at hread
    split at hread
    · cases hread
    · exact h.going segment hread later (List.mem_cons_of_mem _ hlater)
  idle := fun hread later hlater => by
    unfold left at hread
    split at hread
    · next hends => exact (List.pairwise_cons.mp h.ended).1 later hlater hends
    · exact h.idle hread later (List.mem_cons_of_mem _ hlater)
  ended := (List.pairwise_cons.mp h.ended).2

end Placed

end Rdlt.Engine
