/-
  Rdlt.Engine.Handoff.Mailbox

  What the coordinator's queue will hand it of one partition, as the mailbox now
  stands: the seals in the queue, and where a message queued in the current
  epoch says so, the seal that waits.
-/

import Rdlt.Engine.Handoff

namespace Rdlt.Engine

variable {waiting : Waiting} {queue : List Progress} {place : Nat} {message : Progress}
  {latest : Latest}

/-! ## What the queue holds of a partition -/

def Progress.sealOf (place : Nat) : Progress → Option Seal
  | .sealed reported => if reported.partition = place then some reported else none
  | _ => none

/-- The epoch in which a message says a seal of the partition at `place` waits. -/
def Progress.epochOf (place : Nat) : Progress → Option Nat
  | .moved partition epoch => if partition = place then some epoch else none
  | _ => none

/-- Whether a message says the read at `place` ended. -/
def Progress.ends (place : Nat) : Progress → Bool
  | .ended partition _ => partition = place
  | _ => false

/-- The seal a message will hand the coordinator of the partition at `place`, of which `waiting`
    waits. -/
def Progress.due (waiting : Waiting) (place : Nat) (message : Progress) : Option Seal :=
  if message.epochOf place = some waiting.epoch then waiting.newest else message.sealOf place

def sealed (queue : List Progress) (place : Nat) : List Seal := queue.filterMap (·.sealOf place)

/-- The epochs of the messages queued that a seal of the partition at `place` waits. -/
def epochs (queue : List Progress) (place : Nat) : List Nat := queue.filterMap (·.epochOf place)

/-- What the queue will hand over of the partition at `place`, of which `waiting` waits. -/
def due (waiting : Waiting) (queue : List Progress) (place : Nat) : List Seal :=
  queue.filterMap (·.due waiting place)

theorem due_of_notMem
    (h : waiting.epoch ∉ epochs queue place) : due waiting queue place = sealed queue place := by
  refine List.filterMap_congr fun message hmessage => ?_
  rw [Progress.due, if_neg]
  intro hepoch
  exact h (List.mem_filterMap.mpr ⟨message, hmessage, hepoch⟩)

theorem Progress.sealOf_of_epochOf {epoch : Nat}
    (h : message.epochOf place = some epoch) : message.sealOf place = none := by
  cases message <;> first | rfl | cases h

theorem due_of_newest
    (h : waiting.newest = none) : due waiting queue place = sealed queue place := by
  refine List.filterMap_congr fun message _ => ?_
  rw [Progress.due]
  split
  · next hepoch => rw [h, Progress.sealOf_of_epochOf hepoch]
  · rfl

/-! ## The mailbox of a partition -/

/-- The mailbox of a partition stands as the messages queued in `epochs` say: a seal waits exactly
    where one of them was queued in the current epoch. -/
structure Posted (waiting : Waiting) (epochs : List Nat) : Prop where
  told : waiting.sealTold = some waiting.epoch ↔ waiting.newest.isSome = true
  queued : waiting.epoch ∈ epochs ↔ waiting.newest.isSome = true
  once : epochs.Nodup
  earlier : ∀ epoch ∈ epochs, epoch ≤ waiting.epoch
  toldEarlier : ∀ epoch, waiting.sealTold = some epoch → epoch ≤ waiting.epoch

/-- A seal that waits of the partition at `place` is handed over after every seal queued. -/
def Last (waiting : Waiting) (queue : List Progress) (place : Nat) : Prop :=
  waiting.epoch ∈ epochs queue place → ∀ newest : Seal,
    due { waiting with newest := some newest } queue place = sealed queue place ++ [newest]

theorem due_of_last
    (hposted : Posted waiting (epochs queue place)) (hlast : Last waiting queue place) :
    due waiting queue place = sealed queue place ++ waiting.newest.toList := by
  cases hnewest : waiting.newest with
  | none => simp [due_of_newest hnewest]
  | some newest =>
    rw [Option.toList_some, ← hlast (hposted.queued.mpr (by simp [hnewest])) newest, ← hnewest]

/-! ## Messages queued -/

@[simp] theorem sealed_append (queue messages : List Progress) (place : Nat) :
    sealed (queue ++ messages) place = sealed queue place ++ sealed messages place :=
  List.filterMap_append

@[simp] theorem epochs_append (queue messages : List Progress) (place : Nat) :
    epochs (queue ++ messages) place = epochs queue place ++ epochs messages place :=
  List.filterMap_append

@[simp] theorem due_append (waiting : Waiting) (queue messages : List Progress) (place : Nat) :
    due waiting (queue ++ messages) place = due waiting queue place ++ due waiting messages place :=
  List.filterMap_append

theorem sealed_cons (message : Progress) (queue : List Progress) (place : Nat) :
    sealed (message :: queue) place = (message.sealOf place).toList ++ sealed queue place := by
  cases h : message.sealOf place <;> simp [sealed, h]

theorem epochs_cons (message : Progress) (queue : List Progress) (place : Nat) :
    epochs (message :: queue) place = (message.epochOf place).toList ++ epochs queue place := by
  cases h : message.epochOf place <;> simp [epochs, h]

theorem due_cons (waiting : Waiting) (message : Progress) (queue : List Progress) (place : Nat) :
    due waiting (message :: queue) place
      = (message.due waiting place).toList ++ due waiting queue place := by
  cases h : message.due waiting place <;> simp [due, h]

theorem Last.append {messages : List Progress}
    (h : Last waiting queue place) (hepochs : epochs messages place = [])
    (hsealed : sealed messages place = []) : Last waiting (queue ++ messages) place := by
  intro hqueued newest
  rw [epochs_append, hepochs, List.append_nil] at hqueued
  have hdue : due { waiting with newest := some newest } messages place = [] := by
    rw [due_of_notMem (by simp [hepochs]), hsealed]
  rw [due_append, sealed_append, hdue, hsealed, List.append_nil, List.append_nil, h hqueued newest]

theorem Last.tail
    (h : Last waiting (message :: queue) place) (honce : (epochs (message :: queue) place).Nodup) :
    Last waiting queue place := by
  intro hqueued newest
  have hwhole := h (by rw [epochs_cons]; exact List.mem_append_right _ hqueued) newest
  have hother : message.epochOf place ≠ some waiting.epoch := by
    intro hepoch
    rw [epochs_cons, hepoch] at honce
    exact (List.nodup_cons.mp honce).1 hqueued
  rw [due_cons, sealed_cons, Progress.due, if_neg hother, List.append_assoc] at hwhole
  exact List.append_cancel_left hwhole

/-! ## Sealing a segment -/

theorem Latest.waiting_insert (latest : Latest) (place other : Nat) (waiting : Waiting) :
    Latest.waiting (latest.insert place waiting) other
      = if place = other then waiting else latest.waiting other := by
  simp only [Latest.waiting, Std.ExtTreeMap.getD_eq_getD_getElem?, Lib.OrdMap.getElem?_insert]
  split <;> rfl

/-- The seal as it is handed over in place of the one that waited: it answers its barrier too. -/
def Seal.answering (reported : Seal) (waited : Option Seal) : Seal :=
  { reported with answers := later reported.answers (waited.bind Seal.answers) }

/-- What the mailbox and the queue are once `reported` is, whose partition's mailbox stood at
    `waiting`: it then stands at `left`, with `messages` queued. -/
structure Posting (latest : Latest) (queue : List Progress) (reported : Seal) (waiting : Waiting)
    (messages : List Progress) (left : Waiting) : Prop where
  posting : sealSegment latest queue reported
    = (latest.insert reported.partition left, queue ++ messages)
  own : ∀ message ∈ messages, message.partition = reported.partition
  going : ∀ message ∈ messages, message.ends reported.partition = false
  posted : Posted left (epochs (queue ++ messages) reported.partition)
  last : Last left (queue ++ messages) reported.partition
  newest : ∀ newest, left.newest = some newest →
    newest.partition = reported.partition ∧ newest.movesOnly = true
  due : due left (queue ++ messages) reported.partition
    = sealed queue reported.partition ++ [reported.answering waiting.newest]

section Reporting

variable {latest : Latest} {queue : List Progress} {reported : Seal} {waiting : Waiting}
  (hwaiting : latest.waiting reported.partition = waiting)
  (hposted : Posted waiting (epochs queue reported.partition))

include hwaiting hposted

theorem posting_told (hlast : Last waiting queue reported.partition)
    (hmoves : reported.movesOnly = true) (htold : waiting.sealTold = some waiting.epoch) :
    Posting latest queue reported waiting []
      { waiting with
        newest := some (reported.answering waiting.newest)
        sealTold := some waiting.epoch } := by
  have hqueued := hposted.queued.mpr (hposted.told.mp htold)
  refine ⟨?_, by simp, by simp, ?_, ?_, ?_, ?_⟩
  · simp [sealSegment, hmoves, Latest.moved, hwaiting, htold, Seal.answering]
  · rw [List.append_nil]
    exact ⟨by simp, by simpa using hqueued, hposted.once, hposted.earlier, by simp⟩
  · rw [List.append_nil]
    exact hlast
  · rintro newest ⟨⟩
    exact ⟨rfl, hmoves⟩
  · rw [List.append_nil]
    exact hlast hqueued _

/-- A seal of no rows with no message queued in the epoch has one of its own. -/
theorem posting_untold (hmoves : reported.movesOnly = true)
    (htold : waiting.sealTold ≠ some waiting.epoch) :
    Posting latest queue reported waiting [.moved reported.partition waiting.epoch]
      { waiting with
        newest := some (reported.answering waiting.newest)
        sealTold := some waiting.epoch } := by
  have hnone := mt hposted.queued.mp fun hsome => htold (hposted.told.mpr hsome)
  have hepochs : epochs (queue ++ [.moved reported.partition waiting.epoch]) reported.partition
      = epochs queue reported.partition ++ [waiting.epoch] := by
    simp [epochs, Progress.epochOf]
  have hdue : ∀ (newest : Seal) (told : Option Nat),
      due { waiting with newest := some newest, sealTold := told }
        (queue ++ [.moved reported.partition waiting.epoch]) reported.partition
        = sealed queue reported.partition ++ [newest] := fun newest told => by
    rw [due_append, due_of_notMem (by exact hnone)]
    simp [due, Progress.due, Progress.epochOf]
  refine ⟨?_, by simp [Progress.partition], by simp [Progress.ends], ?_, fun _ newest => ?_, ?_,
    hdue _ _⟩
  · simp [sealSegment, hmoves, Latest.moved, hwaiting, htold, Seal.answering]
  · rw [hepochs]
    refine ⟨by simp, by simp, ?_, ?_, by simp⟩
    · rw [List.nodup_append]
      refine ⟨hposted.once, by simp, fun epoch hepoch other hother => ?_⟩
      rw [List.mem_singleton.mp hother]
      exact fun heq => hnone (heq ▸ hepoch)
    · intro epoch hepoch
      rcases List.mem_append.mp hepoch with hepoch | hepoch
      · exact hposted.earlier epoch hepoch
      · exact (List.mem_singleton.mp hepoch).le
  · rw [sealed_append]
    simpa [sealed, Progress.sealOf] using hdue newest _
  · rintro newest ⟨⟩
    exact ⟨rfl, hmoves⟩

theorem posting_rows (hrows : reported.movesOnly = false) :
    Posting latest queue reported waiting [.sealed (reported.answering waiting.newest)]
      { waiting with newest := none, epoch := waiting.epoch + 1 } := by
  have hepochs : epochs (queue ++ [.sealed (reported.answering waiting.newest)]) reported.partition
      = epochs queue reported.partition := by
    simp [epochs, Progress.epochOf]
  have hpast : waiting.epoch + 1 ∉ epochs queue reported.partition :=
    fun hmem => absurd (hposted.earlier _ hmem) (by omega)
  refine ⟨?_, by simp [Progress.partition, Seal.answering], by simp [Progress.ends], ?_,
    fun hmem => ?_, by simp, ?_⟩
  · simp [sealSegment, hrows, Latest.superseded, hwaiting, Seal.answering]
  · rw [hepochs]
    refine ⟨⟨fun htold => ?_, by simp⟩, ⟨fun hmem => absurd hmem hpast, by simp⟩, hposted.once,
      fun epoch hepoch => (hposted.earlier epoch hepoch).trans (Nat.le_succ _),
      fun epoch htold => (hposted.toldEarlier epoch htold).trans (Nat.le_succ _)⟩
    exact absurd (hposted.toldEarlier _ htold) (by simp)
  · rw [hepochs] at hmem
    exact absurd hmem hpast
  · rw [due_of_newest rfl]
    simp [sealed, Progress.sealOf, Seal.answering]

theorem exists_posting (hlast : Last waiting queue reported.partition) :
    ∃ messages left, Posting latest queue reported waiting messages left := by
  cases hmoves : reported.movesOnly with
  | false => exact ⟨_, _, posting_rows hwaiting hposted hmoves⟩
  | true =>
    by_cases htold : waiting.sealTold = some waiting.epoch
    · exact ⟨_, _, posting_told hwaiting hposted hlast hmoves htold⟩
    · exact ⟨_, _, posting_untold hwaiting hposted hmoves htold⟩

end Reporting

/-! ## Taking a message -/

def Latest.after (latest : Latest) : Progress → Latest
  | .moved partition epoch => (latest.takeSeal partition epoch).2
  | _ => latest

theorem observe_snd (c : Coordinator) (latest : Latest) (message : Progress) :
    (c.observe latest message).2 = latest.after message := by
  cases message with
  | moved partition epoch =>
    simp only [Coordinator.observe, Latest.after]
    split <;> rfl
  | _ => rfl

/-- Of the partition at `place`, the first message hands over the first of what the queue does. -/
structure Takes (latest : Latest) (message : Progress) (queue : List Progress) (place : Nat) :
    Prop where
  posted : Posted ((latest.after message).waiting place) (epochs queue place)
  last : Last (latest.waiting place) (message :: queue) place →
    Last ((latest.after message).waiting place) queue place
  newest : ∀ newest, ((latest.after message).waiting place).newest = some newest →
    (latest.waiting place).newest = some newest
  due : due (latest.waiting place) (message :: queue) place
    = ((Handoff.handed latest message).filter (·.partition = place)).toList
      ++ due ((latest.after message).waiting place) queue place

theorem Posted.tail (h : Posted waiting (epochs (message :: queue) place))
    (hother : message.epochOf place ≠ some waiting.epoch) :
    Posted waiting (epochs queue place) := by
  have hsuffix : (epochs queue place).Sublist (epochs (message :: queue) place) := by
    rw [epochs_cons]
    exact List.sublist_append_right ..
  refine ⟨h.told, ?_, h.once.sublist hsuffix, fun epoch hepoch => h.earlier epoch
    (hsuffix.subset hepoch), h.toldEarlier⟩
  rw [← h.queued, epochs_cons, List.mem_append, Option.mem_toList]
  exact ⟨.inr, fun hmem => hmem.resolve_left hother⟩

/-- The message that a seal waits hands it over. -/
theorem takes_moved (hposted : Posted (latest.waiting place)
      (epochs (.moved place (latest.waiting place).epoch :: queue) place))
    (hmine : ∀ newest, (latest.waiting place).newest = some newest → newest.partition = place) :
    Takes latest (.moved place (latest.waiting place).epoch) queue place := by
  have hafter : (latest.after (.moved place (latest.waiting place).epoch)).waiting place
      = { latest.waiting place with newest := none, sealTold := none } := by
    simp [Latest.after, Latest.takeSeal, Latest.waiting_insert]
  have honce := hposted.once
  simp only [epochs_cons, Progress.epochOf, if_pos, Option.toList_some, List.cons_append,
    List.nil_append] at honce
  have hnone : (latest.waiting place).epoch ∉ epochs queue place := (List.nodup_cons.mp honce).1
  have hhanded : (Handoff.handed latest (.moved place (latest.waiting place).epoch)).filter
      (·.partition = place) = (latest.waiting place).newest := by
    simp only [Handoff.handed, Latest.takeSeal, ne_eq, not_true, if_false]
    cases hnewest : (latest.waiting place).newest with
    | none => rfl
    | some newest => rw [Option.filter_some, if_pos (by simpa using hmine newest hnewest)]
  refine ⟨?_, fun _ hmem => ?_, ?_, ?_⟩
  · rw [hafter]
    refine ⟨by simp, by simpa using hnone, (List.nodup_cons.mp honce).2, fun epoch hepoch => ?_,
      by simp⟩
    refine hposted.earlier epoch ?_
    rw [epochs_cons]
    exact List.mem_append_right _ hepoch
  · rw [hafter] at hmem
    exact absurd hmem hnone
  · rw [hafter]
    exact nofun
  · rw [hafter, hhanded, due_cons, Progress.due, if_pos (by simp [Progress.epochOf]),
      due_of_notMem hnone, due_of_newest rfl]

/-- Taking the first message takes the first of what the queue hands over. -/
theorem takes (hposted : Posted (latest.waiting place) (epochs (message :: queue) place))
    (hmine : ∀ place newest, (latest.waiting place).newest = some newest →
      newest.partition = place) : Takes latest message queue place := by
  by_cases hepoch : message.epochOf place = some (latest.waiting place).epoch
  · cases message with
    | moved partition epoch =>
      simp only [Progress.epochOf] at hepoch
      split at hepoch
      · rename_i hplace
        subst hplace
        cases hepoch
        exact takes_moved hposted (hmine _)
      · cases hepoch
    | _ => cases hepoch
  · have hafter : (latest.after message).waiting place = latest.waiting place := by
      cases message with
      | moved partition epoch =>
        simp only [Latest.after, Latest.takeSeal]
        split
        · rfl
        · rename_i hsame
          rw [Latest.waiting_insert, if_neg]
          rintro rfl
          exact hepoch (by simpa [Progress.epochOf] using (not_not.mp hsame).symm)
      | _ => rfl
    refine ⟨hafter ▸ hposted.tail hepoch, fun hlast => hafter ▸ hlast.tail hposted.once,
      fun newest hnewest => hafter ▸ hnewest, ?_⟩
    rw [due_cons, Progress.due, if_neg hepoch, hafter]
    refine congrArg (Option.toList · ++ _) (Eq.symm ?_)
    cases message with
    | sealed reported =>
      simp only [Handoff.handed, Progress.sealOf, Option.filter_some, decide_eq_true_eq]
    | moved partition epoch =>
      -- a seal of another partition
      simp only [Handoff.handed, Progress.sealOf, Latest.takeSeal]
      rw [Option.filter_eq_none_iff]
      intro newest hnewest hpartition
      split at hnewest
      · cases hnewest
      · rename_i hsame
        have hpartition : newest.partition = place := by simpa using hpartition
        have hplace : partition = place := (hmine _ _ hnewest).symm.trans hpartition
        subst hplace
        exact hepoch (by simpa [Progress.epochOf] using (not_not.mp hsame).symm)
    | _ => rfl

end Rdlt.Engine
