/-
  Rdlt.Engine.Coordinator.Phases

  Streams read in phases and planned again as they read.
-/

import Rdlt.Engine.Coordinator.Basic

namespace Rdlt.Engine

structure AttemptError where
  code : Option String
  message : String
  deriving DecidableEq, Repr

/-- The most partitions the streams of an attempt read at once. -/
def maxPlanPartitions : Nat := 16384

/-- Refuses more partitions than the streams of an attempt may read at once. -/
def withinPartitionLimit (partitions : Nat) : Except AttemptError Unit :=
  if partitions ≤ maxPlanPartitions then .ok ()
  else
    .error {
      code := some "plan_invalid"
      message := s!"the streams read {partitions} partitions at once, "
        ++ s!"beyond the limit of {maxPlanPartitions}" }

def phaseUnexpected (name : StreamName) (phase : Nat) : AttemptError where
  code := some "phase_unexpected"
  message := s!"stream {name}: the source planned phase {phase} of a stream not read as changes"

/-- The phases once phase `next` begins, of partitions that start where `starts` says: the entries
    of the phases before it are stale, also those of one no commit recorded. -/
def Phases.begin (phases : Phases) (next : Nat) (starts : Lib.OrdMap PartitionId Cursor) : Phases :=
  { phases with
    phase := next
    begun := some { stale := (phases.begun.getD {}).stale ++ phases.committed.keys, starts }
    committed := ∅
    reading := ∅ }

namespace Coordinator

/-! ## Launching reads -/

section

variable (c : Coordinator) (stream : Nat)

/-- The place `stream`'s partition `id` takes, and the places then free: that of its ended read,
    else one no stream reads whose seals were all committed, else a new one. -/
def place (id : PartitionId) : Nat × Finset Nat :=
  match ((c.phases stream).bind fun phases => phases.reading[id]?).filter c.endedAt with
  | some index => (index, c.retired)
  | none =>
    match (c.retired.sort (· ≤ ·)).find? fun index => index ∉ c.sealing with
    | some index => (index, c.retired.erase index)
    | none => (c.partitions.length, c.retired)

def placing (id : PartitionId) (cursor : Option Cursor) : Coordinator :=
  let placed := c.place stream id
  let tracked := PartitionRun.starting stream id cursor
  { c with
    partitions :=
      if placed.1 < c.partitions.length then c.partitions.set placed.1 tracked
      else c.partitions ++ [tracked]
    retired := placed.2
    unended := c.unended + 1
    streams := c.streams.modify stream fun run =>
      { run with
        remaining := run.remaining + 1
        phases := run.phases.map fun phases =>
          { phases with reading := phases.reading.insert id placed.1 } }
    launched := c.launched ++ [.read { index := placed.1, stream, id, cursor }] }

def launch (id : PartitionId) (cursor : Option Cursor) : Except AttemptError Coordinator := do
  withinPartitionLimit (c.unended + 1)
  .ok (c.placing stream id cursor)

/-- A coordinator, with why the attempt ends where it does: what it started before stays started. -/
abbrev Outcome := Coordinator × Option AttemptError

def launchAll (c : Coordinator) (stream : Nat) : List (PartitionId × Option Cursor) → Outcome
  | [] => (c, none)
  | start :: starts =>
    match c.launch stream start.1 start.2 with
    | .ok c => c.launchAll stream starts
    | .error error => (c, some error)

/-! ## New phases -/

/-- Whether `stream` is phased, and every partition it reads in its phase has ended. -/
def phaseEnded : Bool :=
  match c.phases stream with
  | none => false
  | some phases => !phases.settled && phases.reading.toList.all fun entry => c.endedAt entry.2

/-- The coordinator with `stream` in its phase `next`, of which nothing reads yet: the places of the
    phase before are free, its ends being committed. -/
def beginning (stream next : Nat) (phases : Phases)
    (starts : Lib.OrdMap PartitionId Cursor) : Coordinator :=
  { c.setPhases stream fun phases => phases.begin next starts with
    retired := c.retired ∪ (phases.reading.toList.map Prod.snd).toFinset
    launched := c.launched ++ [.phase stream next starts] }

def begin (stream next : Nat) (planned : PartitionPlan) : Outcome :=
  match c.streams[stream]?, c.phases stream with
  | some run, some phases =>
    if !phases.changes then (c, some (phaseUnexpected run.name next))
    else
      (c.beginning stream next phases planned.starts).launchAll stream
        (planned.partitions.map fun id => (id, planned.starts[id]?))
  | _, _ => (c, none)

/-- Takes what a source planned for `stream` once its phase ended: a plan naming a new phase starts
    the phase's partitions, and any other settles the stream. -/
def planAgain (planned : PartitionPlan) : Outcome :=
  match c.phases stream with
  | none => (c, none)
  | some phases =>
    match planned.phase.filter (· ≠ phases.phase) with
    | some next => c.begin stream next planned
    | none => (c.setPhases stream fun phases => { phases with settled := true }, none)

end

/-- Plans again each of `streams` whose phase has ended, `plans` being what the source plans. -/
def advanceEach (plans : Nat → PartitionPlan) : List Nat → Coordinator → Outcome
  | [], c => (c, none)
  | stream :: streams, c =>
    if c.phaseEnded stream then
      match c.planAgain stream (plans stream) with
      | (c, none) => advanceEach plans streams c
      | failed => failed
    else advanceEach plans streams c

/-- Plans again each phased stream whose phase has ended. A stopping attempt starts nothing more. -/
def advancePhases (c : Coordinator) (plans : Nat → PartitionPlan) : Outcome :=
  if c.stopping then (c, none) else advanceEach plans (List.range c.streams.length) c

/-! ## Plans of the same phase -/

/-- The partitions a plan that names `named` may not start: those still reading, and those with
    seals no commit has taken. -/
def unsettled (c : Coordinator) (phases : Phases) : List PartitionId :=
  ((phases.reading.toList.filter fun entry => !c.endedAt entry.2).map Prod.fst)
    ++ (c.sealing.sort (· ≤ ·)).filterMap fun index => (c.partitions[index]?).map PartitionRun.id

/-- Where a partition committed at `position` is read from again; nowhere where it is done. -/
def resumes : Option PartitionState → Option (Option Cursor)
  | some .done => none
  | some (.cursor cursor) => some (some cursor)
  | none => some none

/-- Where the partitions `planned` names that are neither running nor done start: at their
    committed positions, or from the beginning. -/
def starts (c : Coordinator) (phases : Phases) (planned : PartitionPlan) :
    List (PartitionId × Option Cursor) :=
  (planned.partitions.filter fun id => id ∉ c.unsettled phases).filterMap fun id =>
    (resumes phases.committed[id]?).map (id, ·)

/-- The coordinator once the running partitions of `stream` that `planned` does not name are asked
    to stop, and the places of ended ones with no seals left are free. -/
def dropped (c : Coordinator) (stream : Nat) (phases : Phases) (planned : PartitionPlan) :
    Coordinator :=
  let unnamed := phases.reading.toList.filter fun entry => entry.1 ∉ planned.partitions
  let stopped := (unnamed.filter fun entry => !c.endedAt entry.2).map Prod.snd
  let retired := unnamed.filter fun entry => c.endedAt entry.2 && entry.2 ∉ c.sealing
  { c.setPhases stream fun phases =>
      { phases with
        reading := (retired.map Prod.fst).foldl Std.ExtTreeMap.erase phases.reading } with
    partitions := c.partitions.mapIdx fun index run =>
      if index ∈ stopped then { run with stop := true } else run
    retired := c.retired ∪ (retired.map Prod.snd).toFinset }

/-- Reads `stream`'s phase as `planned` says: running partitions it no longer names stop, and each
    it names that is neither running nor done starts from its committed position, or from the
    beginning. -/
def rebalance (c : Coordinator) (stream : Nat) (planned : PartitionPlan) : Outcome :=
  match c.phases stream with
  | none => (c, none)
  | some phases => (c.dropped stream phases planned).launchAll stream (c.starts phases planned)

/-- Takes what a source planned again for `stream` as it reads: a plan of the same phase is read as
    it now says, and one naming a new phase waits for the next commit to begin it. -/
def replanStream (c : Coordinator) (stream : Nat) (planned : PartitionPlan) : Outcome :=
  let c : Coordinator := { c with streams := c.streams.modify stream fun run =>
    { run with named := planned.partitions.toFinset } }
  match c.phases stream with
  | none => (c, none)
  | some phases =>
    let c := c.setPhases stream fun phases => { phases with settled := false }
    match planned.phase.filter (· ≠ phases.phase) with
    | some _ => (c, none)
    | none => c.rebalance stream planned

end Coordinator

end Rdlt.Engine
