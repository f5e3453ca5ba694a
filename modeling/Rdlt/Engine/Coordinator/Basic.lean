/-
  Rdlt.Engine.Coordinator.Basic

  The commit coordinator's state: the streams an attempt loads, the partitions
  it reads, each at a place of its own, the seals waiting for a commit, and the
  cursors its source has yet to be told are committed.
-/

import Rdlt.Engine.Seals

namespace Rdlt.Engine

open Lib

/-! ## Streams and partitions -/

/-- A partition as the coordinator sees it. -/
structure PartitionRun where
  stream : Nat
  id : PartitionId
  ended : Bool := false
  /-- Whether this partition alone was asked to stop. -/
  stop : Bool := false
  /-- Where the partition stood when its read started, then the position of its last commit that
      landed. -/
  stands : Option PartitionState
  deriving DecidableEq, Repr

def PartitionRun.starting (stream : Nat) (id : PartitionId) (cursor : Option Cursor) :
    PartitionRun :=
  { stream, id, stands := cursor.map .cursor }

/-- A phase an attempt began: the entries of the phases before it, and where its partitions
    start. -/
structure Begun where
  stale : List PartitionId := []
  starts : OrdMap PartitionId Cursor := ∅

/-- A phased stream's place in its phases. -/
structure Phases where
  /-- The phase the stream reads. -/
  phase : Nat
  /-- The partitions the stream reads in its phase, by id, each with its place. -/
  reading : OrdMap PartitionId Nat := ∅
  /-- The committed position of each partition of the phase, as state records it. -/
  committed : OrdMap PartitionId PartitionState := ∅
  /-- The phase this attempt began, which the next commit records. -/
  begun : Option Begun := none
  /-- Whether planning named no new phase. -/
  settled : Bool := false
  /-- Whether the stream is read as changes. -/
  changes : Bool

/-- A full read of a stream, from its first partition to its last. -/
structure Cycle where
  generation : GenerationId
  /-- Whether state records the cycle. -/
  recorded : Bool
  /-- Partition entries of the previous cycle, deleted when this cycle is first recorded. -/
  stale : List PartitionId
  /-- Whether a commit has already ended the cycle. -/
  finished : Bool
  completed : List GenerationId

/-- A stream as one attempt loads it. -/
structure StreamRun where
  name : StreamName
  /-- The full read in progress; none for incremental reads. -/
  cycle : Option Cycle := none
  /-- Partitions still reading. -/
  remaining : Nat := 0
  /-- Whether any partition stopped before its end. -/
  stopped : Bool := false
  /-- For a stream that tracks its partitions, its place in its phases. -/
  phases : Option Phases := none
  /-- How the stream's table sequences its rows, where state records otherwise. -/
  sequences : Option String := none
  /-- Every partition the stream's latest plan names. -/
  named : Finset PartitionId := ∅

/-- Whether the next commit ends the stream's cycle: every partition read to its end. -/
def StreamRun.completes (stream : StreamRun) : Bool :=
  stream.remaining == 0 && !stream.stopped && stream.cycle.any fun cycle => !cycle.finished

/-- What a source plans of a stream, checked: partitions of distinct ids, and starts of those it
    names. -/
structure PartitionPlan where
  phase : Option Nat := none
  partitions : List PartitionId
  starts : OrdMap PartitionId Cursor := ∅
  distinct : partitions.Nodup
  placed : ∀ id cursor, starts[id]? = some cursor → id ∈ partitions

/-! ## Cursors owed -/

/-- A cursor owed to a partition's source. -/
structure Owing where
  cursor : Cursor
  /-- Whether the commit that took the cursor recorded the partition done. -/
  done : Bool
  /-- The reports carrying the partition that failed in a row. -/
  failures : Nat
  deriving DecidableEq, Repr

/-- The cursors each stream's source has yet to be told are committed, by stream and partition. -/
abbrev Owed := OrdMap Nat (OrdMap PartitionId Owing)

/-! ## The coordinator -/

/-- A read launched: its place, and where it starts. -/
structure Job where
  index : Nat
  stream : Nat
  id : PartitionId
  cursor : Option Cursor
  deriving DecidableEq, Repr

/-- What the coordinator starts: a phase of a stream, with where it says partitions start, or a
    read. -/
inductive Launch where
  | phase (stream phase : Nat) (starts : OrdMap PartitionId Cursor)
  | read (job : Job)

/-- The partitions the destination holds done, by stream and partition, with the epoch of the
    session whose commit recorded each so. -/
abbrev DoneMarkers := OrdMap PartitionKey Epoch

def DoneMarkers.note (state : PipelineState) (name : StreamName) (epochs : DoneMarkers)
    (position : PartitionId × PartitionState) : DoneMarkers :=
  match position.2, state.recordedBy[toLex (name, position.1)]? with
  | .done, some epoch => epochs.insert (toLex (name, position.1)) epoch
  | _, _ => epochs

/-- The partitions `state` records done, each by the epoch it says recorded it. -/
def DoneMarkers.ofState (state : PipelineState) : DoneMarkers :=
  state.streams.toList.foldl
    (fun epochs entry => entry.2.partitions.toList.foldl (note state entry.1) epochs) ∅

structure Coordinator where
  streams : List StreamRun
  partitions : List PartitionRun
  epoch : Epoch
  /-- The seals waiting for a commit. -/
  waiting : WaitingSeals := {}
  /-- The places with seals no commit has taken yet. -/
  sealing : Finset Nat := ∅
  /-- The places of ended partitions no stream reads any more. -/
  retired : Finset Nat := ∅
  /-- The segments partitions abandoned since the last commit. -/
  abandoned : SegmentSet := .new
  owed : Owed := ∅
  /-- How many tracked partitions have not ended. -/
  unended : Nat
  stopping : Bool := false
  /-- The partitions the destination holds done, through the commits that landed. -/
  done : DoneMarkers := ∅
  /-- What was started, in order, until the attempt notes it. -/
  launched : List Launch := []

namespace Coordinator

def phases (c : Coordinator) (stream : Nat) : Option Phases :=
  (c.streams[stream]?).bind StreamRun.phases

def endedAt (c : Coordinator) (index : Nat) : Bool :=
  (c.partitions[index]?).any PartitionRun.ended

def setPhases (c : Coordinator) (stream : Nat) (change : Phases → Phases) : Coordinator :=
  { c with streams := c.streams.modify stream fun run =>
      { run with phases := run.phases.map change } }

/-! ## What partitions tell -/

def sealed (c : Coordinator) (sent : Seal) : Coordinator :=
  { c with sealing := insert sent.partition c.sealing, waiting := c.waiting.push sent }

/-- Notes a segment whose rows no commit will take. -/
def abandon (c : Coordinator) (segment : SegmentId) : Coordinator :=
  { c with abandoned := c.abandoned.insert segment }

def ended (c : Coordinator) (index : Nat) (stopped : Bool) : Coordinator :=
  match c.partitions[index]? with
  | none => c
  | some run =>
    { c with
      partitions := c.partitions.set index { run with ended := true }
      unended := c.unended - 1
      streams := c.streams.modify run.stream fun stream =>
        { stream with remaining := stream.remaining - 1, stopped := stream.stopped || stopped } }

/-- What the coordinator makes of a message, and of the mailbox a message may say a seal waits
    in. -/
def observe (c : Coordinator) (latest : Latest) : Progress → Coordinator × Latest
  | .started _ => (c, latest)
  | .abandoned _ segment => (c.abandon segment, latest)
  | .sealed sent => (c.sealed sent, latest)
  | .moved partition epoch =>
    let taken := latest.takeSeal partition epoch
    match taken.1 with
    | some sent => (c.sealed sent, taken.2)
    | none => (c, taken.2)
  | .ended partition stopped => (c.ended partition stopped, latest)

end Coordinator

end Rdlt.Engine
