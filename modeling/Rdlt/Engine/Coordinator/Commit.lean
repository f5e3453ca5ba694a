/-
  Rdlt.Engine.Coordinator.Commit

  What a commit carries: the sealed segments, where each partition stands, and
  the changes to stored state that go with them, in order: new phases first,
  their stale entries before where their partitions start, then positions.
-/

import Rdlt.Engine.Coordinator.Phases

namespace Rdlt.Engine

open Lib

/-! ## What the sealed segments add up to -/

/-- What a stream contributes to a commit. -/
structure StreamReport where
  commits : Nat := 0
  counts : Counts := {}
  deriving DecidableEq, Repr

def ShredCounts.add (left right : ShredCounts) : ShredCounts where
  parsed := saturatingAdd left.parsed right.parsed
  tripped := saturatingAdd left.tripped right.tripped
  observed := saturatingAdd left.observed right.observed
  rebuilt := saturatingAdd left.rebuilt right.rebuilt
  exact := saturatingAdd left.exact right.exact

def FilteredRows.add (left right : FilteredRows) : FilteredRows where
  dropped := left.dropped + right.dropped
  deleted := left.deleted + right.deleted

/-- A stream's counts with those of a sealed segment of its. -/
def Counts.add (left right : Counts) : Counts where
  rows := left.rows + right.rows
  bytes := left.bytes + right.bytes
  discardedRows := left.discardedRows + right.discardedRows
  discardedValues := left.discardedValues + right.discardedValues
  discards :=
    if right.discards.isEmpty then left.discards else left.discards.absorb right.discards
  deletesIgnored := left.deletesIgnored + right.deletesIgnored
  truncatesIgnored := left.truncatesIgnored + right.truncatesIgnored
  shred := left.shred.add right.shred
  filtered := left.filtered.add right.filtered

/-- What the sealed segments of a commit add up to. -/
structure Collected where
  segments : SegmentSet
  positions : OrdMap Nat PartitionState
  /-- Each partition's newest cursor, which its source is told is committed. -/
  reported : OrdMap Nat Cursor
  streams : OrdMap Nat StreamReport

/-- The phases once the changes of the phase they began are taken: its partitions are recorded at
    their starts. -/
def Phases.taken (phases : Phases) : Phases :=
  match phases.begun with
  | none => phases
  | some begun =>
    { phases with
      begun := none
      committed := begun.starts.toList.foldl
        (fun committed start => committed.insert start.1 (.cursor start.2)) phases.committed }

/-- The cycle once a commit landed, which `completes` it where every partition was read out. -/
def Cycle.landed (cycle : Cycle) (completes : Bool) : Cycle :=
  { cycle with recorded := true, stale := [], finished := cycle.finished || completes }

/-- The partition once a commit landed that records it at `position`, where it does. -/
def PartitionRun.landed (run : PartitionRun) (position : Option PartitionState) : PartitionRun :=
  { run with stands := position.or run.stands }

namespace Coordinator

/-- The cursor the partition at `index` stood at, which it is told where a commit records it done
    with no cursor among its seals. -/
def stoodAt (c : Coordinator) (index : Nat) (position : PartitionState) : Option Cursor :=
  match position, (c.partitions[index]?).bind PartitionRun.stands with
  | .done, some (.cursor cursor) => some cursor
  | _, _ => none

def segments (counted : List Counted) : SegmentSet :=
  counted.foldl
    (fun segments counted =>
      if counted.counts.rows > 0 then segments.insert counted.segment else segments)
    .new

def counts (c : Coordinator) (counted : List Counted) : OrdMap Nat StreamReport :=
  counted.foldl
    (fun streams counted =>
      let stream := (c.partitions[counted.partition]?).elim 0 PartitionRun.stream
      let report := streams.getD stream {}
      streams.insert stream
        { commits := if counted.counts.rows > 0 then 1 else report.commits
          counts := report.counts.add counted.counts })
    ∅

/-- The sealed segments with rows, each partition's newest position, and each stream's counts. -/
def collect (c : Coordinator) : Collected × Coordinator :=
  ({ segments := segments c.waiting.counted
     positions := c.waiting.standing.map fun _ standing => standing.position
     reported := c.waiting.standing.filterMap fun index standing =>
       standing.told.or (c.stoodAt index standing.position)
     streams := c.counts c.waiting.counted },
   { c with waiting := {}, sealing := ∅ })

/-! ## The changes to stored state -/

section

variable (c : Coordinator) (delta : List StateEdit) (positions : OrdMap Nat PartitionState)

def begunDelta (epoch : Epoch) (name : StreamName) (phase : Nat) (begun : Begun) : List StateEdit :=
  begun.stale.map (fun id => .delete (.partition name id))
    ++ begun.starts.toList.map (fun start => .put (.partition name start.1 (.cursor start.2) epoch))
    ++ [.put (.phase name phase)]

def streamPhaseDelta (epoch : Epoch) (run : StreamRun) : List StateEdit :=
  (run.phases.bind fun phases =>
    phases.begun.map (begunDelta epoch run.name phases.phase)).getD []

/-- The state changes recording the phases the next commit begins, stream by stream. -/
def phaseDelta : List StateEdit × Coordinator :=
  (c.streams.flatMap (streamPhaseDelta c.epoch),
   { c with streams := c.streams.map fun run =>
     { run with phases := run.phases.map Phases.taken } })

/-- The state changes recording how each stream's table sequences its rows. -/
def sequencesDelta : List StateEdit × Coordinator :=
  (c.streams.filterMap fun run => run.sequences.map fun record => .put (.table record),
   { c with streams := c.streams.map fun run => { run with sequences := none } })

/-- The state change recording that the partition at `index` stands at `state`. -/
def position (index : Nat) (state : PartitionState) : List StateEdit :=
  ((c.partitions[index]?).bind fun run =>
    (c.streams[run.stream]?).map fun stream =>
      StateEdit.put (.partition stream.name run.id state c.epoch)).toList

/-- The changes of a stream whose full read state does not record yet: the entries of the read
    before it deleted, then the read. -/
def cycleDelta (run : StreamRun) : List StateEdit :=
  (run.cycle.filter fun cycle => !cycle.recorded).elim [] fun cycle =>
    cycle.stale.map (fun id => .delete (.partition run.name id))
      ++ [.put (.generation run.name cycle.generation)]

/-- How many completed reads state keeps of a stream. -/
def keptCompletions : Nat := 16

/-- The changes of a stream whose full read the commit ends. -/
def completedDelta (run : StreamRun) : List StateEdit :=
  run.cycle.elim [] fun cycle =>
    let generations := cycle.completed ++ [cycle.generation]
    [.delete (.generation run.name),
     .put (.completed run.name (generations.drop (generations.length - keptCompletions)))]

def stateDelta : List StateEdit :=
  c.streams.flatMap cycleDelta
    ++ positions.toList.flatMap (fun entry => c.position entry.1 entry.2)
    ++ (c.streams.filter StreamRun.completes).flatMap completedDelta

/-! ## Done markers -/

def touched : StateEdit → StateKey
  | .put (.phase name _) => .phase name
  | .put (.partition name id _ _) => .partition name id
  | .put (.generation name _) => .generation name
  | .put (.completed name _) => .completed name
  | .put (.table record) => .table record
  | .delete key => key

/-- The done markers of partitions the streams' latest plans leave out, which `delta` does not
    change, the earliest recorded first. -/
def unplanned : List (StreamName × PartitionId) :=
  let listed := c.done.toList.insertionSort fun left right => left.2 ≤ right.2
  (listed.map fun entry => ofLex entry.1).filter fun marker =>
    (c.streams.any fun run => run.name = marker.1 ∧ marker.2 ∉ run.named) &&
      StateKey.partition marker.1 marker.2 ∉ delta.map touched

/-- The done markers that go to make room for a commit's changes: the earliest `count` of partitions
    no plan names. -/
def forgotten (count : Nat) : List (StreamName × PartitionId) :=
  (c.unplanned delta).take count

/-- The deletes that make room for a commit's changes. -/
def relieve (count : Nat) : List StateEdit :=
  (c.forgotten delta count).map fun marker => .delete (.partition marker.1 marker.2)

def markerLanded (done : DoneMarkers) : StateEdit → DoneMarkers
  | .put (.partition name id .done epoch) => done.insert (toLex (name, id)) epoch
  | .put (.partition name id (.cursor _) _) => done.erase (toLex (name, id))
  | .delete (.partition name id) => done.erase (toLex (name, id))
  | _ => done

def markersLanded (done : DoneMarkers) (delta : List StateEdit) : DoneMarkers :=
  delta.foldl markerLanded done

/-! ## A commit landed -/

/-- Records, for each phased stream, the committed positions of its phase's partitions. -/
def recordPositions : Coordinator :=
  positions.toList.foldl
    (fun c entry =>
      match c.partitions[entry.1]? with
      | none => c
      | some run => c.setPhases run.stream fun phases =>
        if phases.reading[run.id]? = some entry.1 then
          { phases with committed := phases.committed.insert run.id entry.2 }
        else phases)
    c

def cyclesLanded : Coordinator :=
  { c with streams := c.streams.map fun run =>
      { run with cycle := run.cycle.map fun cycle => cycle.landed run.completes } }

def stand : Coordinator :=
  { c with partitions := c.partitions.mapIdx fun index run => run.landed positions[index]? }

/-- Records a commit that landed: what state now records of full reads and of partitions done, the
    positions of the phases' partitions, and where each partition stands. -/
def landed (delta : List StateEdit) : Coordinator :=
  let recorded : Coordinator := { c.cyclesLanded with done := markersLanded c.done delta }
  (recorded.recordPositions positions).stand positions

end

end Coordinator

end Rdlt.Engine
