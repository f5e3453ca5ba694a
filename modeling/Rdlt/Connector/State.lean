/-
  Rdlt.Connector.State

  A pipeline's stored state, as far as its streams go: for each stream the phase
  it reads, where its partitions stand, and the full reads it has in progress
  and completed.
-/

import Rdlt.Connector.Commit
import Rdlt.Lib.Last

namespace Rdlt

open Lib

/-! ## Entries -/

abbrev StreamName := String

abbrev PartitionId := String

/-- A source's opaque position in a partition. -/
abbrev Cursor := Bytes

/-- Where a partition stands: at a cursor, or read to its end. -/
inductive PartitionState where
  | cursor (cursor : Cursor)
  | done
  deriving DecidableEq, Repr

/-- An entry of a pipeline's state; `table` stands for those of tables, which say nothing of a
    stream's partitions. -/
inductive StateEntry where
  | phase (stream : StreamName) (phase : Nat)
  | partition (stream : StreamName) (partition : PartitionId) (state : PartitionState)
      (epoch : Epoch)
  | generation (stream : StreamName) (generation : GenerationId)
  | completed (stream : StreamName) (generations : List GenerationId)
  | table (record : String)
  deriving DecidableEq, Repr

inductive StateKey where
  | phase (stream : StreamName)
  | partition (stream : StreamName) (partition : PartitionId)
  | generation (stream : StreamName)
  | completed (stream : StreamName)
  | table (record : String)
  deriving DecidableEq, Repr

inductive StateEdit where
  | put (entry : StateEntry)
  | delete (key : StateKey)
  deriving DecidableEq, Repr

/-! ## State -/

structure StreamState where
  phase : Nat := 0
  partitions : OrdMap PartitionId PartitionState := ∅
  generation : Option GenerationId := none
  completed : List GenerationId := []

instance TablePath.transCmp : Std.TransCmp (@compare TablePath LinearOrder.toOrd) := inferInstance

abbrev PartitionKey := StreamName ×ₗ PartitionId

instance PartitionKey.transCmp : Std.TransCmp (@compare PartitionKey LinearOrder.toOrd) :=
  inferInstance

structure PipelineState where
  streams : OrdMap StreamName StreamState := ∅
  /-- The epoch of the session whose commit recorded each partition's position. -/
  recordedBy : OrdMap PartitionKey Epoch := ∅

namespace PipelineState

variable (state : PipelineState) (name other : StreamName)

section

variable (state : PipelineState)

def stream (name : StreamName) : StreamState := state.streams.getD name {}

/-- The state with `stream` as `change` leaves it, made where there is none. -/
def entry (name : StreamName) (change : StreamState → StreamState) : PipelineState :=
  { state with streams := state.streams.insert name (change (state.stream name)) }

def held (name : StreamName) (change : StreamState → StreamState) : PipelineState :=
  match state.streams[name]? with
  | some stream => { state with streams := state.streams.insert name (change stream) }
  | none => state

def put : StateEntry → PipelineState
  | .phase name phase => state.entry name fun stream => { stream with phase }
  | .partition name partition position epoch =>
    { state.entry name fun stream =>
        { stream with partitions := stream.partitions.insert partition position } with
      recordedBy := state.recordedBy.insert (toLex (name, partition)) epoch }
  | .generation name generation => state.entry name fun stream =>
    { stream with generation := some generation }
  | .completed name generations => state.entry name fun stream =>
    { stream with completed := generations }
  | .table _ => state

def delete : StateKey → PipelineState
  | .phase name => state.held name fun stream => { stream with phase := 0 }
  | .partition name partition =>
    { state.held name fun stream =>
        { stream with partitions := stream.partitions.erase partition } with
      recordedBy := state.recordedBy.erase (toLex (name, partition)) }
  | .generation name => state.held name fun stream => { stream with generation := none }
  | .completed name => state.held name fun stream => { stream with completed := [] }
  | .table _ => state

def edit : StateEdit → PipelineState
  | .put entry => state.put entry
  | .delete key => state.delete key

def apply (delta : List StateEdit) : PipelineState :=
  delta.foldl edit state

/-! ## What an edit changes -/

def position (name : StreamName) (id : PartitionId) : Option PartitionState :=
  (state.stream name).partitions[id]?

end

def phase (state : PipelineState) (name : StreamName) : Nat := (state.stream name).phase

@[simp] theorem stream_recordedBy (recordedBy : OrdMap PartitionKey Epoch) (name : StreamName) :
    { state with recordedBy }.stream name = state.stream name := rfl

theorem stream_entry (change : StreamState → StreamState) : (state.entry name change).stream other
      = if name = other then change (state.stream name) else state.stream other := by
  rw [stream, entry, Std.ExtTreeMap.getD_eq_getD_getElem?, OrdMap.getElem?_insert]
  split
  · rfl
  · rw [stream, Std.ExtTreeMap.getD_eq_getD_getElem?]

theorem stream_held {change : StreamState → StreamState} (hempty : change {} = {}) :
    (state.held name change).stream other
      = if name = other then change (state.stream name) else state.stream other := by
  simp only [stream, held, Std.ExtTreeMap.getD_eq_getD_getElem?]
  cases hheld : state.streams[name]? with
  | some stream =>
    simp only [OrdMap.getElem?_insert]
    split
    · rfl
    · rfl
  | none =>
    by_cases hsame : name = other
    · subst hsame
      simp [hheld, hempty]
    · simp [hsame]

end PipelineState

/-- What `change` makes of the partition `id` of `name`, where it is about it. -/
def StateEdit.moves (name : StreamName) (id : PartitionId) :
    StateEdit → Option (Option PartitionState)
  | .put (.partition other partition position _) =>
    if other = name ∧ partition = id then some (some position) else none
  | .delete (.partition other partition) =>
    if other = name ∧ partition = id then some none else none
  | _ => none

/-- The phase `change` records of `name`, where it is about it. -/
def StateEdit.rephases (name : StreamName) : StateEdit → Option Nat
  | .put (.phase other phase) => if other = name then some phase else none
  | .delete (.phase other) => if other = name then some 0 else none
  | _ => none

namespace PipelineState

variable (state : PipelineState) (delta : List StateEdit) (name : StreamName) (id : PartitionId)
  (change : StateEdit)

theorem position_edit :
    (state.edit change).position name id
      = (change.moves name id).getD (state.position name id) := by
  cases change with
  | put entry =>
    cases entry with
    | partition other partition position epoch =>
      simp only [edit, put, PipelineState.position, stream_recordedBy, stream_entry,
        StateEdit.moves]
      by_cases hname : other = name
      · subst hname
        by_cases hid : partition = id <;> simp [hid, OrdMap.getElem?_insert]
      · simp [hname]
    | table record => rfl
    | _ =>
      simp only [edit, put, PipelineState.position, stream_entry, StateEdit.moves]
      split
      · rename_i hname
        subst hname
        rfl
      · rfl
  | delete key =>
    cases key with
    | partition other partition =>
      simp only [edit, delete, PipelineState.position, stream_recordedBy, StateEdit.moves]
      rw [stream_held _ _ _ (by simp)]
      by_cases hname : other = name
      · subst hname
        by_cases hid : partition = id <;> simp [hid, OrdMap.getElem?_erase]
      · simp [hname]
    | table record => rfl
    | _ =>
      simp only [edit, delete, PipelineState.position, StateEdit.moves]
      rw [stream_held _ _ _ rfl]
      split
      · rename_i hname
        subst hname
        rfl
      · rfl

theorem phase_edit :
    (state.edit change).phase name = (change.rephases name).getD (state.phase name) := by
  cases change with
  | put entry =>
    cases entry with
    | phase other phase =>
      simp only [edit, put, PipelineState.phase, stream_entry, StateEdit.rephases]
      by_cases hname : other = name <;> simp [hname]
    | table record => rfl
    | _ =>
      simp only [edit, put, PipelineState.phase, stream_recordedBy, stream_entry,
        StateEdit.rephases]
      split
      · rename_i hname
        subst hname
        rfl
      · rfl
  | delete key =>
    cases key with
    | phase other =>
      simp only [edit, delete, PipelineState.phase, StateEdit.rephases]
      rw [stream_held _ _ _ rfl]
      by_cases hname : other = name <;> simp [hname]
    | table record => rfl
    | _ =>
      simp only [edit, delete, PipelineState.phase, stream_recordedBy, StateEdit.rephases]
      rw [stream_held _ _ _ (by simp)]
      split
      · rename_i hname
        subst hname
        rfl
      · rfl

theorem position_apply : (state.apply delta).position name id
      = (lastSome (StateEdit.moves name id) delta).getD (state.position name id) :=
  lookup_foldl edit (fun state => state.position name id) (StateEdit.moves name id)
    (fun state change => position_edit state name id change) delta state

theorem phase_apply : (state.apply delta).phase name
      = (lastSome (StateEdit.rephases name) delta).getD (state.phase name) :=
  lookup_foldl edit (fun state => state.phase name) (StateEdit.rephases name)
    (fun state change => phase_edit state name change) delta state

end PipelineState

end Rdlt
