/-
  Rdlt.Engine.Handoff

  How partitions' reads hand their seals to the coordinator. A read seals its
  open segment at each checkpoint and opens the next; one that ends seals what
  it read last or abandons it, and says so.
-/

import Rdlt.Engine.Coordinator.Commit

namespace Rdlt.Engine

/-! ## What passes -/

def Progress.partition : Progress → Nat
  | .started partition => partition
  | .sealed sent => sent.partition
  | .moved partition _ => partition
  | .abandoned partition _ => partition
  | .ended partition _ => partition

/-- What passes between the reads of partitions and the coordinator. -/
inductive Handed where
  /-- A read of `stream` reported a seal. -/
  | sent (stream : Nat) (reported : Seal)
  /-- A seal of no rows that waited was replaced by the one its read sealed next. -/
  | superseded (stream : Nat) (dropped : Seal)
  /-- The coordinator was handed a seal. -/
  | taken (stream : Nat) (handed : Seal)
  /-- A read let its open segment go uncommitted. -/
  | abandoned (partition : Nat) (segment : SegmentId)
  /-- The coordinator collected a commit. -/
  | collected (commit : Collected)

structure Handoff where
  coordinator : Coordinator
  latest : Latest := ∅
  queue : List Progress := []
  /-- The next segment id of the load. -/
  segments : SegmentId := 0
  /-- The open segment of the read at each place; none once the read is over and the coordinator has
      not heard so. -/
  reads : Lib.OrdMap Nat (Option SegmentId) := ∅
  /-- What passed, in order. -/
  trace : List Handed := []

inductive Exchange where
  /-- The read at `place` starts. -/
  | start (place : Nat)
  /-- The read at `place` is asked to stop before it starts. -/
  | unread (place : Nat)
  /-- The source of the read at `place` emits a checkpoint, its open segment counting `counts`. -/
  | checkpoint (place : Nat) (counts : Counts) (cursor : Cursor) (answers : Option Nat)
  /-- The read at `place` starts again from its earliest, what it read since its seal let go. -/
  | reset (place : Nat)
  /-- The read at `place` ends, at `state` where that is anywhere new. -/
  | finish (place : Nat) (counts : Counts) (state : Option PartitionState) (stopped : Bool)
  /-- The coordinator takes the next message. -/
  | take
  /-- The coordinator starts a read of a partition of `stream`. -/
  | launch (stream : Nat) (id : PartitionId) (cursor : Option Cursor)
  /-- The coordinator collects a commit. -/
  | collect

namespace Handoff

def streamAt (h : Handoff) (place : Nat) : Nat :=
  (h.coordinator.partitions[place]?).elim 0 PartitionRun.stream

/-! ## What a read does -/

def opening (h : Handoff) (place : Nat) : Handoff :=
  { h with reads := h.reads.insert place (some h.segments), segments := h.segments + 1 }

def start (h : Handoff) (place : Nat) : Handoff :=
  { h.opening place with queue := h.queue ++ [.started place] }

/-- The read at `place`, over before it started, says it ended. -/
def unread (h : Handoff) (place : Nat) : Handoff :=
  { h with reads := h.reads.insert place none, queue := h.queue ++ [.ended place true] }

def checkpoint (h : Handoff) (place : Nat) (segment : SegmentId) (counts : Counts) (cursor : Cursor)
    (answers : Option Nat) : Handoff :=
  let reported : Seal := { partition := place, segment, state := .cursor cursor, answers, counts }
  let posted := sealSegment h.latest h.queue reported
  { h.opening place with
    latest := posted.1
    queue := posted.2
    trace := h.trace ++ .sent (h.streamAt place) reported
      :: ((h.latest.waiting place).newest.map (Handed.superseded (h.streamAt place))).toList }

/-- The read at `place` lets its open segment go and starts again. -/
def reset (h : Handoff) (place : Nat) (segment : SegmentId) : Handoff :=
  { h.opening place with
    queue := h.queue ++ [.abandoned place segment]
    trace := h.trace ++ [.abandoned place segment] }

/-- The read at `place` is over: it seals its open segment at `state`, or lets it go. -/
def finish (h : Handoff) (place : Nat) (segment : SegmentId) (counts : Counts)
    (state : Option PartitionState) (stopped : Bool) : Handoff :=
  let last : Progress × Handed :=
    match state with
    | some state =>
      let reported : Seal := { partition := place, segment, state, counts }
      (.sealed reported, .sent (h.streamAt place) reported)
    | none => (.abandoned place segment, .abandoned place segment)
  { h with
    reads := h.reads.insert place none
    queue := h.queue ++ [last.1, .ended place stopped]
    trace := h.trace ++ [last.2] }

/-! ## What the coordinator does -/

/-- The seal a message hands the coordinator, where it hands one. -/
def handed (latest : Latest) : Progress → Option Seal
  | .sealed reported => some reported
  | .moved partition epoch => (latest.takeSeal partition epoch).1
  | _ => none

/-- The reads once the coordinator took a message: it heard of the end of the one that says so. -/
def heard (reads : Lib.OrdMap Nat (Option SegmentId)) : Progress → Lib.OrdMap Nat (Option SegmentId)
  | .ended partition _ => reads.erase partition
  | _ => reads

/-- The coordinator took `message`, the first of its queue. -/
def take (h : Handoff) (message : Progress) (rest : List Progress) : Handoff :=
  let observed := h.coordinator.observe h.latest message
  { h with
    coordinator := observed.1
    latest := observed.2
    queue := rest
    reads := heard h.reads message
    trace := h.trace ++ ((handed h.latest message).map fun taken =>
      Handed.taken (h.streamAt taken.partition) taken).toList }

/-- The coordinator collected a commit of every seal waiting. -/
def collect (h : Handoff) : Handoff :=
  { h with
    coordinator := h.coordinator.collect.2
    trace := h.trace ++ [.collected h.coordinator.collect.1] }

/-- Whether `place` is new, or its read is heard to be over and its seals are all collected: only
    then is the place another read's. -/
def free (h : Handoff) (place : Nat) : Prop :=
  h.reads[place]? = none ∧ place ∉ h.coordinator.sealing ∧
    (place = h.coordinator.partitions.length ∨ h.coordinator.endedAt place = true)

instance (h : Handoff) (place : Nat) : Decidable (h.free place) :=
  inferInstanceAs (Decidable (_ ∧ _))

def launch (h : Handoff) (stream : Nat) (id : PartitionId) (cursor : Option Cursor) : Handoff :=
  { h with coordinator := h.coordinator.placing stream id cursor }

/-- Whether the coordinator expects the read at `place`, which has not started. -/
def expected (h : Handoff) (place : Nat) : Prop :=
  h.reads[place]? = none ∧ (h.coordinator.partitions[place]?).any (!·.ended) = true

instance (h : Handoff) (place : Nat) : Decidable (h.expected place) :=
  inferInstanceAs (Decidable (_ ∧ _))

/-! ## Runs -/

/-- What an exchange leads to; none where it cannot happen. -/
def step (h : Handoff) : Exchange → Option Handoff
  | .start place => if h.expected place then some (h.start place) else none
  | .unread place => if h.expected place then some (h.unread place) else none
  | .checkpoint place counts cursor answers =>
    h.reads[place]?.join.map fun segment => h.checkpoint place segment counts cursor answers
  | .reset place => h.reads[place]?.join.map fun segment => h.reset place segment
  | .finish place counts state stopped =>
    -- A read asked to stop seals nothing as it ends.
    if stopped ∧ state.isSome then none
    else h.reads[place]?.join.map fun segment => h.finish place segment counts state stopped
  | .take => h.queue.head?.map fun message => h.take message h.queue.tail
  | .launch stream id cursor =>
    if h.free (h.coordinator.place stream id).1 then some (h.launch stream id cursor) else none
  | .collect => some h.collect

def run (h : Handoff) (exchanges : List Exchange) : Option Handoff := exchanges.foldlM step h

end Handoff

end Rdlt.Engine
