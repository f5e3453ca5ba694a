/-
  Rdlt.Engine.Coordinator.Done

  The done markers a coordinator follows through its commits are those of the
  state the commits leave: a partition has one where state records it done, with
  the epoch of the session that recorded it so.
-/

import Rdlt.Engine.Coordinator.Commit

namespace Rdlt.Engine

open Lib

/-! ## The markers of a state -/

variable (state : PipelineState) (name : StreamName) (id : PartitionId)

def marker (state : PipelineState) (key : PartitionKey) (position : PartitionState) :
    Option Epoch :=
  if position = .done then state.recordedBy[key]? else none

theorem DoneMarkers.getElem?_note (name other : StreamName)
    (id : PartitionId) (epochs : DoneMarkers) (position : PartitionId × PartitionState) :
    (note state other epochs position)[toLex (name, id)]? = (if other = name then
          if position.1 = id then (marker state (toLex (name, id)) position.2).map some else none
        else none).getD epochs[toLex (name, id)]? := by
  obtain ⟨partition, state'⟩ := position
  by_cases hkey : other = name ∧ partition = id
  · obtain ⟨rfl, rfl⟩ := hkey
    cases state' with
    | cursor cursor => simp [note, marker]
    | done =>
      cases hepoch : state.recordedBy[toLex (other, partition)]? with
      | none => simp [note, marker, hepoch]
      | some epoch => simp [note, marker, hepoch]
  · have hkept : (note state other epochs (partition, state'))[toLex (name, id)]?
        = epochs[toLex (name, id)]? := by
      unfold note
      split
      · rw [OrdMap.getElem?_insert, if_neg (by simpa using hkey)]
      · rfl
    rw [hkept]
    by_cases hname : other = name
    · rw [if_pos hname, if_neg fun hid => hkey ⟨hname, hid⟩, Option.getD_none]
    · rw [if_neg hname, Option.getD_none]

theorem DoneMarkers.getElem?_foldl_note (epochs : DoneMarkers) (entry : StreamName × StreamState) :
    (entry.2.partitions.toList.foldl (note state entry.1) epochs)[toLex (name, id)]?
      = (if entry.1 = name then
    ((entry.2.partitions[id]?).bind (marker state (toLex (name, id)))).map some
        else none).getD epochs[toLex (name, id)]? := by
  rw [lookup_foldl _ (fun epochs : DoneMarkers => epochs[toLex (name, id)]?) _
    (getElem?_note state name entry.1 id)]
  congr 1
  split
  · rw [OrdMap.lastSome_toList_bind entry.2.partitions id
      fun position => (marker state (toLex (name, id)) position).map some]
    cases entry.2.partitions[id]? <;> rfl
  · exact lastSome_eq_none.mpr fun _ _ => rfl

theorem DoneMarkers.getElem?_ofState : (DoneMarkers.ofState state)[toLex (name, id)]?
      = (state.position name id).bind (marker state (toLex (name, id))) := by
  rw [ofState, lookup_foldl _ (fun epochs : DoneMarkers => epochs[toLex (name, id)]?) _
      (getElem?_foldl_note state name id),
    OrdMap.lastSome_toList_bind state.streams name fun streamed =>
      ((streamed.partitions[id]?).bind (marker state (toLex (name, id)))).map some]
  simp only [PipelineState.position, PipelineState.stream, Std.ExtTreeMap.getD_eq_getD_getElem?]
  cases state.streams[name]? with
  | none => simp
  | some streamed =>
    simp only [Option.bind_some, Option.getD_some]
    cases (streamed.partitions[id]?).bind (marker state (toLex (name, id))) <;> simp

/-! ## Markers followed -/

theorem recordedBy_edit {change : StateEdit} (hkept : ∀ name id, change.moves name id = none) :
    (state.edit change).recordedBy = state.recordedBy := by
  have hheld : ∀ (name : StreamName) (f : StreamState → StreamState),
      (state.held name f).recordedBy = state.recordedBy := by
    intro name f
    unfold PipelineState.held
    split <;> rfl
  cases change with
  | put entry =>
    cases entry with
    | partition name id position epoch => simpa [StateEdit.moves] using hkept name id
    | _ => rfl
  | delete key =>
    cases key with
    | partition name id => simpa [StateEdit.moves] using hkept name id
    | table record => rfl
    | _ => exact hheld _ _

theorem DoneMarkers.getElem?_ofState_edit {state : PipelineState} {change : StateEdit}
    {name : StreamName} {id : PartitionId} (hmoves : change.moves name id = none)
    (hby : (state.edit change).recordedBy[toLex (name, id)]?
      = state.recordedBy[toLex (name, id)]?) :
    (ofState (state.edit change))[toLex (name, id)]? = (ofState state)[toLex (name, id)]? := by
  rw [getElem?_ofState, getElem?_ofState, PipelineState.position_edit, hmoves, Option.getD_none]
  refine congrArg (Option.bind _) (funext fun position => ?_)
  rw [marker, hby, marker]

/-- What an edit leaves of the partition it changes. -/
def DoneMarkers.leaves : StateEdit → Option Epoch
  | .put (.partition _ _ .done epoch) => some epoch
  | _ => none

/-- An edit decides whether the partition it changes is held done, and leaves the others. -/
theorem DoneMarkers.getElem?_markerLanded (markers : DoneMarkers) (edit : StateEdit) :
    (Coordinator.markerLanded markers edit)[toLex (name, id)]?
      = ((if Coordinator.touched edit = .partition name id then some edit else none).map
          leaves).getD markers[toLex (name, id)]? := by
  cases edit with
  | put entry =>
    cases entry with
    | partition other partition position epoch =>
      by_cases hsame : other = name ∧ partition = id <;> cases position <;>
        simp [Coordinator.markerLanded, Coordinator.touched, leaves, OrdMap.getElem?_insert,
          OrdMap.getElem?_erase, hsame]
    | _ => rfl
  | delete key =>
    cases key with
    | partition other partition =>
      by_cases hsame : other = name ∧ partition = id <;>
        simp [Coordinator.markerLanded, Coordinator.touched, leaves, OrdMap.getElem?_erase, hsame]
    | _ => rfl

theorem DoneMarkers.ofState_edit (change : StateEdit) :
    ofState (state.edit change) = Coordinator.markerLanded (ofState state) change := by
  refine OrdMap.ext fun key => ?_
  obtain ⟨⟨name, id⟩, rfl⟩ := toLex.surjective key
  rw [getElem?_markerLanded]
  cases change with
  | put entry =>
    cases entry with
    | partition other partition position epoch =>
      by_cases hsame : other = name ∧ partition = id
      · rw [getElem?_ofState, PipelineState.position_edit]
        cases position <;>
          simp [StateEdit.moves, hsame, PipelineState.edit, PipelineState.put, marker, leaves,
            Coordinator.touched]
      · rw [getElem?_ofState_edit (by simp [StateEdit.moves, hsame]) (by
          simp [PipelineState.edit, PipelineState.put, OrdMap.getElem?_insert, hsame])]
        simp [Coordinator.touched, hsame]
    | _ => exact getElem?_ofState_edit rfl (by rw [recordedBy_edit state fun _ _ => rfl])
  | delete key =>
    cases key with
    | partition other partition =>
      by_cases hsame : other = name ∧ partition = id
      · rw [getElem?_ofState, PipelineState.position_edit]
        simp [StateEdit.moves, hsame, leaves, Coordinator.touched]
      · rw [getElem?_ofState_edit (by simp [StateEdit.moves, hsame]) (by
          simp [PipelineState.edit, PipelineState.delete, OrdMap.getElem?_erase, hsame])]
        simp [Coordinator.touched, hsame]
    | _ => exact getElem?_ofState_edit rfl (by rw [recordedBy_edit state fun _ _ => rfl])

theorem DoneMarkers.ofState_apply (delta : List StateEdit) :
    Coordinator.markersLanded (ofState state) delta = ofState (state.apply delta) := by
  induction delta generalizing state with
  | nil => rfl
  | cons change delta ih =>
    rw [Coordinator.markersLanded, List.foldl_cons, ← ofState_edit]
    exact ih (state.edit change)

theorem DoneMarkers.position_of_mem {state : PipelineState} {name : StreamName} {id : PartitionId}
    {epoch : Epoch} (h : (ofState state)[toLex (name, id)]? = some epoch) :
    state.position name id = some .done := by
  rw [getElem?_ofState] at h
  obtain ⟨position, hposition, hmarker⟩ := Option.bind_eq_some_iff.mp h
  unfold marker at hmarker
  split at hmarker
  · rename_i hdone
    rw [hposition, hdone]
  · cases hmarker

end Rdlt.Engine
