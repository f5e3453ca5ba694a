/-
  Rdlt.Engine.Reads

  How an attempt reads each of its streams: incrementally, from its committed
  partitions, or as one full read, which resumes the read state records in
  progress or starts a new one.
-/

import Rdlt.Engine.Coordinator.Phases

namespace Rdlt.Engine

/-! ## Reads -/

inductive ReadMode where
  | full
  | incremental
  | cdc
  deriving DecidableEq, Repr

/-- A stream as its plan reads it. -/
structure StreamPlan where
  name : StreamName
  mode : ReadMode
  deriving DecidableEq, Repr

inductive Read where
  /-- From its committed partitions. -/
  | incremental (state : StreamState)
  /-- As one full read, planned from the given state. -/
  | cycle (cycle : Cycle) (state : StreamState)
  /-- Not at all: this run already completed the stream's full read. -/
  | completed

section

variable (plan : StreamPlan)

/-- How an attempt reads `plan`, given its committed state, where the run's full read of the stream,
    were state to record none, would be `drawn`. -/
def read (committed : StreamState) (drawn : GenerationId) : Read :=
  match plan.mode, committed.generation with
  | .full, some generation =>
    .cycle
      { generation, recorded := true, stale := [], finished := false,
        completed := committed.completed }
      committed
  | .full, none =>
    if drawn ∈ committed.completed then .completed
    else
      .cycle
        { generation := drawn, recorded := false, stale := committed.partitions.keys,
          finished := false, completed := committed.completed }
        {}
  | _, _ => .incremental committed

/-- The state a stream's partitions are planned from; none for a read already completed. -/
def Read.state : Read → StreamState
  | .incremental state => state
  | .cycle _ state => state
  | .completed => {}

/-! ## Partitions -/

/-- The partitions of a stream still to read, and its phase. -/
structure Partitioned where
  /-- The phase they belong to. -/
  phase : Nat := 0
  /-- The committed positions of the phase's partitions. -/
  committed : Lib.OrdMap PartitionId PartitionState := ∅
  /-- When the plan begins a new phase, the entries of the phases before it and where its partitions
      start. -/
  begun : Option Begun := none
  /-- The partitions to read, each from its committed position or its start. -/
  partitions : List (PartitionId × Option Cursor) := []
  /-- Every partition the plan names, those it leaves unread among them. -/
  named : Finset PartitionId := ∅

/-- The partitions `planned` names that are not done, each from its committed position or the
    beginning. -/
def resumed (committed : Lib.OrdMap PartitionId PartitionState) (partitions : List PartitionId) :
    List (PartitionId × Option Cursor) :=
  partitions.filterMap fun id => (Coordinator.resumes committed[id]?).map (id, ·)

def Partitioned.begins (state : StreamState) (planned : PartitionPlan) (phase : Nat) :
    Partitioned where
  phase
  begun := some { stale := state.partitions.keys, starts := planned.starts }
  partitions := planned.partitions.map fun id => (id, planned.starts[id]?)
  named := planned.partitions.toFinset

def Partitioned.resumes (state : StreamState) (planned : PartitionPlan) : Partitioned where
  phase := state.phase
  committed := state.partitions
  partitions := resumed state.partitions planned.partitions
  named := planned.partitions.toFinset

/-- The partitions of `plan`'s stream still to read, with their committed cursors; a plan beginning
    a new phase starts its partitions where it says. -/
def partitions (state : StreamState) (planned : PartitionPlan) : Except AttemptError Partitioned :=
  match planned.phase.filter (· ≠ state.phase) with
  | some phase =>
    if plan.mode ≠ .cdc then .error (phaseUnexpected plan.name phase)
    else .ok (Partitioned.begins state planned phase)
  | none => .ok (Partitioned.resumes state planned)

/-- A stream's full read, where it is one, and the partitions its source planned for it, read as
    `read` says; none for a read already completed. -/
def sourced (read : Read) (planned : PartitionPlan) :
    Except AttemptError (Option Cycle × Partitioned) :=
  match read with
  | .incremental state => (partitions plan state planned).map (none, ·)
  | .cycle cycle state => (partitions plan state planned).map (some cycle, ·)
  | .completed => .ok (none, {})

/-! ## Streams -/

/-- A stream an attempt starts with, and the partitions of it still to read, each with where its
    read starts. -/
structure Planned where
  stream : StreamRun
  partitions : List (PartitionId × Option Cursor)

/-- Whether a stream's partitions are tracked: those of a change stream, and of an incremental
    stream of a run that follows its source. -/
def StreamPlan.tracked (follow : Bool) : Bool :=
  plan.mode = .cdc ∨ follow ∧ plan.mode = .incremental

def planned (follow : Bool) (sequences : Option String)
    (cycle : Option Cycle) (partitioned : Partitioned) : Planned where
  stream :=
    { name := plan.name
      cycle
      remaining := partitioned.partitions.length
      phases :=
        if plan.tracked follow then
          some { phase := partitioned.phase, committed := partitioned.committed,
                 begun := partitioned.begun, changes := plan.mode = .cdc }
        else none
      sequences
      named := partitioned.named }
  partitions := partitioned.partitions

end

/-- A stream to load: what its source plans of it, the generation its full read would be, and how
    its table sequences its rows, where state records otherwise. -/
structure Loaded where
  plan : StreamPlan
  planned : PartitionPlan
  drawn : GenerationId
  sequences : Option String := none

def Loaded.prepare (loaded : Loaded) (follow : Bool) (stored : PipelineState) :
    Except AttemptError Planned := do
  let committed := stored.stream loaded.plan.name
  let sourced ← sourced loaded.plan (Engine.read loaded.plan committed loaded.drawn) loaded.planned
  .ok (Engine.planned loaded.plan follow loaded.sequences sourced.1 sourced.2)

def Phases.spawned (phases : Phases) (partitions : List PartitionId) (first : Nat) : Phases :=
  { phases with
    reading := (partitions.zipIdx first).foldl
      (fun reading place => reading.insert place.1 place.2) phases.reading }

/-- The stream with its partitions reading, from the place at `first` on. -/
def Planned.placed (planned : Planned) (first : Nat) : StreamRun :=
  { planned.stream with
    phases := planned.stream.phases.map fun phases =>
      phases.spawned (planned.partitions.map Prod.fst) first }

/-- The phase `planned`'s stream begins, if it does, and its reads, from the place at `first` on. -/
def Planned.launches (planned : Planned) (stream first : Nat) : List Launch :=
  ((planned.stream.phases.bind fun phases =>
      phases.begun.map fun begun => Launch.phase stream phases.phase begun.starts).toList)
    ++ (planned.partitions.zipIdx first).map fun place =>
      .read { index := place.2, stream, id := place.1.1, cursor := place.1.2 }

/-- The streams and partitions an attempt starts reading: each partition takes the next place. -/
def spawnPartitions (planned : List Planned) : List StreamRun × List PartitionRun × List Launch :=
  planned.zipIdx.foldl
    (fun spawned entry =>
      let first := spawned.2.1.length
      (spawned.1 ++ [entry.1.placed first], spawned.2.1 ++ entry.1.partitions.map fun start =>
         PartitionRun.starting entry.2 start.1 start.2,
       spawned.2.2 ++ entry.1.launches entry.2 first))
    ([], [], [])

end Rdlt.Engine
