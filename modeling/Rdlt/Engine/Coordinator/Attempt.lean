/-
  Rdlt.Engine.Coordinator.Attempt

  An attempt as its coordinator runs it: partitions seal, abandon and end,
  streams are planned again, and commits are made, each landing or not, its
  answer arriving or lost, and reported to the source.
-/

import Rdlt.Engine.Coordinator.Acks
import Rdlt.Engine.Reads

namespace Rdlt.Engine

/-! ## What happens -/

/-- The read of partition `id` of `stream` at a place. -/
structure ReadAt where
  place : Nat
  stream : Nat
  id : PartitionId
  deriving DecidableEq, Repr

/-- A commit that landed: where it records partitions, the cursors their sources are told, and the
    partitions whose done markers made room for it. -/
structure Landed where
  positions : List (ReadAt × PartitionState)
  reported : List (ReadAt × Cursor)
  forgotten : List (StreamName × PartitionId)
  deriving DecidableEq, Repr

inductive Happened where
  /-- A phase or a read started. -/
  | launched (launch : Launch)
  /-- The coordinator was handed a seal of the read at `place`. -/
  | sealed (place : Nat) (state : PartitionState)
  /-- The read at `place` ended. -/
  | ended (place : Nat)
  | landed (commit : Landed)
  | told (made : Report)

structure Attempt where
  coordinator : Coordinator
  /-- What the destination stores. -/
  stored : PipelineState
  /-- What happened, in order. -/
  trace : List Happened := []
  /-- Whether the attempt ended with an error. -/
  failed : Bool := false

/-- What a commit meets: the state changes of tables, how many done markers make room for it,
    whether it applies and is answered, whether every partition had ended, and how its reports
    end. -/
structure Meets where
  tables : List String := []
  relief : Nat := 0
  lands : Bool := true
  answered : Bool := true
  atEnd : Bool := false
  replies : Nat → Reply := fun _ => .told

inductive Event where
  | sealed (sent : Seal)
  | abandoned (segment : SegmentId)
  | ended (index : Nat) (stopped : Bool)
  | stop
  /-- A stream is planned again as it reads. -/
  | replan (stream : Nat) (planned : PartitionPlan)
  | commit (meets : Meets)
  /-- The streams whose phases ended are planned again, every seal being taken. -/
  | advance (plans : Nat → PartitionPlan)
  /-- The attempt's last report of the cursors still owed. -/
  | settle (replies : Nat → Reply)

/-! ## Commits -/

/-- What a commit is made of: the sealed segments it takes, its changes to stored state, and the
    coordinator once it took them. -/
structure Prepared where
  collected : Collected
  delta : List StateEdit
  coordinator : Coordinator

/-- The commit of every seal waiting, with the state that goes with it. -/
def Coordinator.prepare (c : Coordinator) (tables : List String) : Prepared :=
  -- A new phase's stale entries go before its partitions' positions, which may reuse ids.
  let phased := c.phaseDelta
  let collected := phased.2.collect
  let sequenced := collected.2.sequencesDelta
  { collected := collected.1
    delta := phased.1 ++ sequenced.1 ++ sequenced.2.stateDelta collected.1.positions
      ++ tables.map fun record => .put (.table record)
    coordinator := sequenced.2 }

def Coordinator.readsAt {β : Type} (c : Coordinator) (places : Lib.OrdMap Nat β) :
    List (ReadAt × β) :=
  places.toList.filterMap fun entry =>
    (c.partitions[entry.1]?).map fun run =>
      ({ place := entry.1, stream := run.stream, id := run.id }, entry.2)

namespace Attempt

/-- The attempt once the coordinator, which stands as `c`, told the source what it is owed of a
    commit of `reported` and `positions`. -/
def acknowledged (attempt : Attempt) (c : Coordinator) (reported : Lib.OrdMap Nat Cursor)
    (positions : Lib.OrdMap Nat PartitionState) (turn : Turn) (replies : Nat → Reply)
    (attempts : Nat) : Attempt :=
  let told := c.acknowledge reported positions turn replies attempts
  { attempt with
    coordinator := { c with owed := told.owed }
    trace := attempt.trace ++ told.reports.map .told
    failed := told.ended }

/-- Commits every sealed segment with the state that goes with it, then tells the source the cursors
    committed and owed. Where there is nothing to publish or record, the source is only told. -/
def commit (attempt : Attempt) (meets : Meets) (attempts : Nat) : Attempt :=
  let prepared := attempt.coordinator.prepare meets.tables
  let collected := prepared.collected
  let c := prepared.coordinator
  if collected.segments = .new ∧ prepared.delta = [] then
    attempt.acknowledged c collected.reported collected.positions (c.turn meets.atEnd)
      meets.replies attempts
  else
    let delta := prepared.delta ++ c.relieve prepared.delta meets.relief
    let c : Coordinator := { c with abandoned := .new }
    if !meets.lands then { attempt with coordinator := c, failed := true }
    else
      let commit : Landed :=
        { positions := c.readsAt collected.positions
          reported := c.readsAt collected.reported
          forgotten := prepared.coordinator.forgotten prepared.delta meets.relief }
      let attempt : Attempt := { attempt with
        coordinator := c
        stored := attempt.stored.apply delta
        trace := attempt.trace ++ [.landed commit] }
      if !meets.answered then { attempt with failed := true }
      else
        let c := c.landed collected.positions delta
        attempt.acknowledged c collected.reported collected.positions (c.turn meets.atEnd)
          meets.replies attempts

/-! ## Runs -/

/-- Whether the partition at `index` is reading: only a read that has not ended tells anything. -/
def reading (attempt : Attempt) (index : Nat) : Bool :=
  (attempt.coordinator.partitions[index]?).any fun run => !run.ended

def planned (attempt : Attempt) (outcome : Coordinator.Outcome) : Attempt :=
  { attempt with
    coordinator := { outcome.1 with launched := [] }
    trace := attempt.trace ++ outcome.1.launched.map .launched
    failed := outcome.2.isSome }

/-- The attempt once `event` happens; none where it cannot happen. -/
def step (attempts : Nat) (attempt : Attempt) (event : Event) : Option Attempt :=
  let c := attempt.coordinator
  if attempt.failed then none
  else
    match event with
    | .sealed sent =>
      if attempt.reading sent.partition then
        some { attempt with
          coordinator := c.sealed sent
          trace := attempt.trace ++ [.sealed sent.partition sent.state] }
      else none
    | .abandoned segment => some { attempt with coordinator := c.abandon segment }
    | .ended index stopped =>
      if attempt.reading index then
        some { attempt with
          coordinator := c.ended index stopped
          trace := attempt.trace ++ [.ended index] }
      else none
    | .stop => some { attempt with coordinator := { c with stopping := true } }
    | .replan stream planned =>
      if c.stopping then none else some (attempt.planned (c.replanStream stream planned))
    | .commit meets => some (attempt.commit meets attempts)
    | .advance plans =>
      if c.sealing = ∅ then some (attempt.planned (c.advancePhases plans)) else none
    | .settle replies => some (attempt.acknowledged c ∅ ∅ .last replies attempts)

def run (attempts : Nat) (attempt : Attempt) (events : List Event) : Option Attempt :=
  events.foldlM (step attempts) attempt

end Attempt

/-! ## Starting -/

/-- What an attempt of a session of `epoch` loads of a destination storing `stored`: streams of
    distinct names. -/
structure Opened where
  epoch : Epoch
  stored : PipelineState
  follow : Bool
  streams : List Loaded
  distinct : (streams.map fun loaded => loaded.plan.name).Nodup

def Opened.start (opened : Opened) : Except AttemptError Attempt := do
  let planned ← opened.streams.mapM fun loaded => loaded.prepare opened.follow opened.stored
  let spawned := spawnPartitions planned
  withinPartitionLimit spawned.2.1.length
  .ok
    { stored := opened.stored
      trace := spawned.2.2.map .launched
      coordinator :=
        { streams := spawned.1, partitions := spawned.2.1, epoch := opened.epoch,
          unended := spawned.2.1.length, done := DoneMarkers.ofState opened.stored } }

end Rdlt.Engine
