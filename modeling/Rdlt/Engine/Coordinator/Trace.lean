/-
  Rdlt.Engine.Coordinator.Trace

  What should hold of an attempt, said of what happened in it alone: which reads
  have not ended and which seals no commit has taken, and for each stream the
  phase it reads and what state should record of it.
-/

import Rdlt.Engine.Coordinator.Attempt

namespace Rdlt.Engine

/-! ## Reads and seals under way -/

/-- What is under way after some of what happened. -/
structure Watch where
  /-- The read at each place that has not ended. -/
  live : Nat → Option (Nat × PartitionId) := fun _ => none
  /-- The reads whose seals no commit has taken. -/
  waiting : List ReadAt := []

namespace Watch

def saw (watch : Watch) : Happened → Watch
  | .launched (.read job) =>
    { watch with live := Function.update watch.live job.index (some (job.stream, job.id)) }
  | .sealed place _ =>
    match watch.live place with
    | some read =>
      { watch with waiting := watch.waiting ++ [{ place, stream := read.1, id := read.2 }] }
    | none => watch
  | .ended place => { watch with live := Function.update watch.live place none }
  | .landed _ => { watch with waiting := [] }
  | _ => watch

def after (trace : List Happened) : Watch := trace.foldl saw {}

/-- Whether no partition has two reads that have not ended. -/
def Single (watch : Watch) : Prop :=
  ∀ place other read, watch.live place = some read → watch.live other = some read → place = other

/-- Whether `job` may be launched: its place is free, and neither a read nor a seal of its
    partition, nor a seal of its place, is under way. -/
def Admits (watch : Watch) (job : Job) : Prop :=
  watch.live job.index = none ∧ (∀ place, watch.live place ≠ some (job.stream, job.id)) ∧
    ∀ read ∈ watch.waiting,
      read.place ≠ job.index ∧ ¬ (read.stream = job.stream ∧ read.id = job.id)

end Watch

def lastLaunched (place : Nat) (read : Option (Nat × PartitionId)) :
    Happened → Option (Nat × PartitionId)
  | .launched (.read job) => if job.index = place then some (job.stream, job.id) else read
  | _ => read

def lastRead (trace : List Happened) (place : Nat) : Option (Nat × PartitionId) :=
  trace.foldl (lastLaunched place) none

def standing (place : Nat) (stood : Option Cursor) : Happened → Option Cursor
  | .launched (.read job) => if job.index = place then job.cursor else stood
  | .sealed other (.cursor cursor) => if other = place then some cursor else stood
  | _ => stood

def lastStood (trace : List Happened) (place : Nat) : Option Cursor :=
  trace.foldl (standing place) none

/-! ## Phases -/

/-- A stream's phases after some of what happened, and what state should hold of them. -/
structure PhaseView where
  /-- The phase the stream reads. -/
  phase : Nat
  /-- Whether no commit has landed since the phase began. -/
  begun : Bool := false
  /-- Where the phase was planned to start. -/
  starts : Lib.OrdMap PartitionId Cursor := ∅
  /-- The partitions read since the phase began. -/
  opened : Finset PartitionId := ∅
  /-- The places of the phase's reads. -/
  reads : Finset Nat := ∅
  /-- The phase the last commit that landed recorded. -/
  recordedPhase : Nat
  /-- Where the commits that landed recorded that phase's partitions. -/
  recorded : Lib.OrdMap PartitionId PartitionState
  /-- The partitions whose records went since, to make room. -/
  forgotten : Finset PartitionId := ∅

namespace PhaseView

def initial (state : StreamState) : PhaseView where
  phase := state.phase
  recordedPhase := state.phase
  recorded := state.partitions

/-- Where the phase's partitions stand before the positions of a commit that lands: at their planned
    starts where it is the phase's first. -/
def base (view : PhaseView) : Lib.OrdMap PartitionId PartitionState :=
  if view.begun then view.starts.map fun _ start => .cursor start else view.recorded

/-- Where a commit that lands records the phase's own reads of `stream`. -/
def positions (stream : Nat) (view : PhaseView) (commit : Landed) :
    List (PartitionId × PartitionState) :=
  (commit.positions.filter fun position =>
    position.1.stream = stream ∧ position.1.place ∈ view.reads).map fun position =>
      (position.1.id, position.2)

/-- The view of `stream`, named `name`, once a commit lands: the phase is recorded, and of it the
    positions of its own reads. -/
def landed (stream : Nat) (name : StreamName) (view : PhaseView) (commit : Landed) : PhaseView :=
  let positions := view.positions stream commit
  { view with
    begun := false
    recordedPhase := view.phase
    recorded := positions.foldl (fun recorded entry => recorded.insert entry.1 entry.2) view.base
    forgotten :=
      ((if view.begun then ∅ else view.forgotten) \ (positions.map Prod.fst).toFinset)
        ∪ ((commit.forgotten.filter fun marker => marker.1 = name).map Prod.snd).toFinset }

def saw (stream : Nat) (name : StreamName) (view : PhaseView) : Happened → PhaseView
  | .launched (.phase other phase starts) =>
    if other = stream then { view with phase, begun := true, starts, opened := ∅, reads := ∅ }
    else view
  | .launched (.read job) =>
    if job.stream = stream then
      { view with opened := insert job.id view.opened, reads := insert job.index view.reads }
    else { view with reads := view.reads.erase job.index }
  | .landed commit => view.landed stream name commit
  | _ => view

def held (view : PhaseView) (id : PartitionId) : Option PartitionState :=
  if id ∈ view.forgotten then none else view.recorded[id]?

/-- Where a read of partition `id` launched now starts: where its phase is recorded, else at the
    beginning, the first of a phase no commit recorded at its planned start; nowhere where it is
    done. -/
def resumesAt (view : PhaseView) (id : PartitionId) : Option (Option Cursor) :=
  if view.begun then some (if id ∈ view.opened then none else view.starts[id]?)
  else Coordinator.resumes view.recorded[id]?

end PhaseView

/-! ## Attempts -/

def Loaded.committed (loaded : Loaded) (stored : PipelineState) : StreamState :=
  (read loaded.plan (stored.stream loaded.plan.name) loaded.drawn).state

def Opened.view (opened : Opened) (loaded : Loaded) (stream : Nat) (trace : List Happened) :
    PhaseView :=
  trace.foldl (PhaseView.saw stream loaded.plan.name) (.initial (loaded.committed opened.stored))

/-- Whether `job` may be launched after `trace`: nothing under way stands against it, and it starts
    where its stream's phase says. -/
def Opened.Admits (opened : Opened) (trace : List Happened) (job : Job) : Prop :=
  (Watch.after trace).Admits job ∧
    ∃ loaded, opened.streams[job.stream]? = some loaded ∧
      (opened.view loaded job.stream trace).resumesAt job.id = some job.cursor

/-- State records a stream as its view says: its phase, and the partitions of that phase, those
    done that went to make room apart. -/
structure PhaseView.Recorded (view : PhaseView) (stored : PipelineState) (name : StreamName) :
    Prop where
  phase : stored.phase name = view.recordedPhase
  positions : ∀ id, stored.position name id = view.held id
  forgotten : ∀ id ∈ view.forgotten, view.recorded[id]? = some .done

/-- State records each stream that tracks its partitions as its view says. -/
def Opened.Recorded (opened : Opened) (trace : List Happened) (stored : PipelineState) : Prop :=
  ∀ stream loaded, opened.streams[stream]? = some loaded →
    loaded.plan.tracked opened.follow = true →
      (opened.view loaded stream trace).Recorded stored loaded.plan.name

def Opened.Launches (opened : Opened) (trace : List Happened) : Prop :=
  ∀ before job after, trace = before ++ .launched (.read job) :: after → opened.Admits before job

end Rdlt.Engine
