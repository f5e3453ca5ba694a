/-
  Rdlt.Engine.Coordinator.Markers

  The partitions a destination holds done, followed through the commits that
  change them: from the states a session's commit records, its own records not
  read, which is enough where they are those the last change of each partition
  puts.
-/

import Rdlt.Engine.Coordinator.Landing
import Rdlt.Connector.Records

namespace Rdlt.Engine

open Lib

open Records (Codec StateRecord Edit)

/-- The states a session's own commit records its partitions at, and the session's epoch. -/
structure Recorded where
  epoch : Epoch
  states : OrdMap PartitionKey PartitionState

namespace DoneMarkers

variable {K V : Type} [DecidableEq K] (codec : Codec K V)

def stands (markers : DoneMarkers) (key : PartitionKey) (state : PartitionState) (epoch : Epoch) :
    DoneMarkers :=
  if state = .done then markers.insert key epoch else markers.erase key

/-- Applies the put of `record`, taking a partition's state from `recorded` where it names it. -/
def put (markers : DoneMarkers) (record : StateRecord K V) (recorded : Recorded) : DoneMarkers :=
  match Records.StateKey.parse codec record.key with
  | .ok (.partition stream partition) =>
    let key := toLex (stream, partition)
    match recorded.states[key]? with
    | some state => markers.stands key state recorded.epoch
    | none =>
      match Records.StateEntry.fromRecord codec record with
      | .ok (.partition _ _ state epoch) => markers.stands key state epoch
      | _ => markers
  | _ => markers

/-- Applies one change of a commit `recorded` was made from. -/
def change (recorded : Recorded) (markers : DoneMarkers) : Records.StateChange K V → DoneMarkers
  | .put record => markers.put codec record recorded
  | .delete key =>
    match Records.StateKey.parse codec key with
    | .ok (.partition stream partition) => markers.erase (toLex (stream, partition))
    | _ => markers

/-- The markers once `delta`, the changes of a commit `recorded` was made from, applies. -/
def landed (markers : DoneMarkers) (delta : List (Records.StateChange K V))
    (recorded : Recorded) : DoneMarkers :=
  delta.foldl (change codec recorded) markers

end DoneMarkers

/-- What landing a commit takes an edit of it for: the put of a partition the session recorded, for
    that of the state it recorded, under the session's own epoch. -/
def Recorded.reads (recorded : Recorded) : StateEdit → StateEdit
  | .put (.partition stream partition state epoch) =>
    (recorded.states[toLex (stream, partition)]?).elim
      (.put (.partition stream partition state epoch)) fun held =>
        .put (.partition stream partition held recorded.epoch)
  | edit => edit

/-- The last of `edits` to change what is stored of partition `id` of stream `name`. -/
def lastEdit (name : StreamName) (id : PartitionId) (edits : List StateEdit) : Option StateEdit :=
  lastSome (fun edit => if Coordinator.touched edit = .partition name id then some edit else none)
    edits

/-- Whether a session recorded what the last of `edits` to change each partition puts. -/
def Recorded.HoldsLast (recorded : Recorded) (edits : List StateEdit) : Prop :=
  ∀ name id, ∀ edit ∈ lastEdit name id edits, recorded.reads edit = edit

theorem Recorded.touched_reads (recorded : Recorded) (edit : StateEdit) :
    Coordinator.touched (recorded.reads edit) = Coordinator.touched edit := by
  cases edit with
  | put entry =>
    cases entry with
    | partition stream partition state epoch =>
      rw [reads]
      cases recorded.states[toLex (stream, partition)]? <;> rfl
    | _ => rfl
  | delete key => rfl

namespace DoneMarkers

variable {K V : Type} [DecidableEq K] (codec : Codec K V)

theorem stands_eq (markers : DoneMarkers) (stream : StreamName) (partition : PartitionId)
    (state : PartitionState) (epoch : Epoch) :
    markers.stands (toLex (stream, partition)) state epoch
      = Coordinator.markerLanded markers (.put (.partition stream partition state epoch)) := by
  cases state <;> rfl

/-- A change of an entry is followed as what it is taken for says of streams. -/
theorem change_eq (recorded : Recorded) (markers : DoneMarkers) (edit : Edit) :
    change codec recorded markers (edit.change codec)
      = Coordinator.markerLanded markers (recorded.reads edit.ofStreams) := by
  cases edit with
  | put entry =>
    rw [Edit.change, change, put, Records.StateEntry.toRecord, Records.parse_encode]
    cases entry with
    | partition stream partition state epoch =>
      dsimp only [Records.StateEntry.key, Edit.ofStreams, Recorded.reads]
      cases recorded.states[toLex (stream, partition)]? with
      | some held => exact stands_eq markers stream partition held recorded.epoch
      | none =>
        have hread := Records.fromRecord_toRecord codec (.partition stream partition state epoch)
        rw [Records.StateEntry.toRecord] at hread
        dsimp only [Records.StateEntry.key] at hread
        rw [hread]
        exact stands_eq markers stream partition state epoch
    | _ => rfl
  | delete key =>
    rw [Edit.change, change, Records.parse_encode]
    cases key <;> rfl

/-- The last edit to change a partition decides whether it is held done. -/
theorem getElem?_markersLanded (markers : DoneMarkers) (edits : List StateEdit) (name : StreamName)
    (id : PartitionId) : (Coordinator.markersLanded markers edits)[toLex (name, id)]?
      = ((lastEdit name id edits).map leaves).getD markers[toLex (name, id)]? := by
  rw [lastEdit, ← lastSome_optionMap]
  exact lookup_foldl Coordinator.markerLanded
    (fun markers : DoneMarkers => markers[toLex (name, id)]?) _ (getElem?_markerLanded name id)
    edits markers

/-- Landing a commit follows its changes, where the session recorded what the last of them to
    change each partition puts. -/
theorem landed_eq {recorded : Recorded} {edits : List Edit}
    (hrecorded : recorded.HoldsLast (edits.map Edit.ofStreams)) (markers : DoneMarkers) :
    markers.landed codec (edits.map (Edit.change codec)) recorded
      = Coordinator.markersLanded markers (edits.map Edit.ofStreams) := by
  have hreads : markers.landed codec (edits.map (Edit.change codec)) recorded
      = Coordinator.markersLanded markers ((edits.map Edit.ofStreams).map recorded.reads) := by
    simp only [landed, Coordinator.markersLanded, List.foldl_map, change_eq]
  rw [hreads]
  generalize edits.map Edit.ofStreams = edits at hrecorded
  refine OrdMap.ext fun key => ?_
  obtain ⟨⟨name, id⟩, rfl⟩ := toLex.surjective key
  have hlast : lastEdit name id (edits.map recorded.reads)
      = (lastEdit name id edits).map recorded.reads := by
    rw [lastEdit, lastSome_map, lastEdit, ← lastSome_optionMap]
    refine lastSome_congr fun edit _ => ?_
    rw [Function.comp_apply, recorded.touched_reads]
    split <;> rfl
  rw [getElem?_markersLanded, getElem?_markersLanded, hlast]
  cases hedit : lastEdit name id edits with
  | none => rfl
  | some edit => rw [Option.map_some, hrecorded name id edit hedit]

/-- The done markers followed through the landed commits of a session are those of the state the
    same changes leave. -/
theorem landed_mirrors_state (state : Records.PipelineState) (commits : List (Recorded × List Edit))
    (hrecorded : ∀ commit ∈ commits, commit.1.HoldsLast (commit.2.map Edit.ofStreams)) :
    ∃ final,
      state.applyAll codec (commits.flatMap fun commit => commit.2.map (Edit.change codec))
        = .ok final ∧
      commits.foldl (fun markers commit =>
          markers.landed codec (commit.2.map (Edit.change codec)) commit.1)
        (ofState state.toPipelineState) = ofState final.toPipelineState := by
  refine ⟨(commits.flatMap Prod.snd).foldl Records.PipelineState.edit state, ?_, ?_⟩
  · rw [← List.map_flatMap, Records.applyAll_changes]
  · rw [Records.PipelineState.toPipelineState_foldl, ← ofState_apply]
    generalize ofState state.toPipelineState = markers
    induction commits generalizing markers with
    | nil => rfl
    | cons commit commits ih =>
      rw [List.foldl_cons, landed_eq codec (hrecorded commit List.mem_cons_self),
        ih fun later hlater => hrecorded later (List.mem_cons_of_mem _ hlater),
        List.flatMap_cons, List.map_append]
      exact (List.foldl_append).symm

/-- A partition begun and read to its end in one commit, then forgotten while another is done. -/
def forgetting : List (Recorded × List Edit) :=
  [({ epoch := 3, states := (∅ : OrdMap PartitionKey PartitionState).insert
        (toLex ("orders", "a")) .done },
      [.put (.partition "orders" "a" (.cursor []) 3), .put (.partition "orders" "a" .done 3)]),
    ({ epoch := 3, states := ∅ },
      [.delete (.partition "orders" "a"), .put (.partition "orders" "b" .done 2)])]

theorem landed_mirrors_state_forgotten : ∃ final,
    ({} : Records.PipelineState).applyAll Codec.plain
        (forgetting.flatMap fun commit => commit.2.map (Edit.change Codec.plain)) = .ok final ∧
      forgetting.foldl (fun markers commit =>
          landed Codec.plain markers (commit.2.map (Edit.change Codec.plain)) commit.1)
        (ofState ({} : Records.PipelineState).toPipelineState)
        = ofState final.toPipelineState := by
  refine landed_mirrors_state Codec.plain {} forgetting fun commit hcommit name id edit hedit => ?_
  simp only [forgetting, List.mem_cons, List.not_mem_nil, or_false] at hcommit
  rcases hcommit with rfl | rfl
  · by_cases hsame : "orders" = name ∧ "a" = id
    · obtain ⟨rfl, rfl⟩ := hsame
      obtain rfl : edit = .put (.partition "orders" "a" .done 3) := (Option.some.inj hedit).symm
      rfl
    · simp [lastEdit, lastSome_cons, Edit.ofStreams, Coordinator.touched, hsame] at hedit
  · unfold Recorded.reads
    split <;> simp

end DoneMarkers

/-! ## The commits of a coordinator -/

namespace Coordinator

/-- The states a commit whose partitions stand at `positions` records, as landing it reads them. -/
def recordedAt (c : Coordinator) (positions : OrdMap Nat PartitionState) : Recorded where
  epoch := c.epoch
  states := (positions.toList.filterMap fun entry => (c.partitions[entry.1]?).bind fun run =>
      (c.streams[run.stream]?).map fun stream =>
        ((toLex (stream.name, run.id) : PartitionKey), entry.2)).foldl
    (fun states entry => states.insert entry.1 entry.2) ∅

theorem lastEdit_positions (c : Coordinator) (positions : OrdMap Nat PartitionState)
    (name : StreamName) (id : PartitionId) :
    lastEdit name id (positions.toList.flatMap fun entry => c.position entry.1 entry.2)
      = ((c.recordedAt positions).states[toLex (name, id)]?).map fun state =>
          .put (.partition name id state c.epoch) := by
  rw [recordedAt, OrdMap.getElem?_foldl_insert, lastSome_filterMap, lastEdit, lastSome_flatMap]
  simp only [Std.ExtTreeMap.getElem?_empty, Option.or_none]
  rw [← lastSome_optionMap]
  refine lastSome_congr fun entry _ => ?_
  unfold position
  cases c.partitions[entry.1]? with
  | none => rfl
  | some run =>
    cases hstream : c.streams[run.stream]? with
    | none => simp [hstream]
    | some stream =>
      by_cases hsame : stream.name = name ∧ run.id = id <;>
        simp [hstream, lastSome_cons, touched, hsame]

/-- What landing a commit reads of its positions is what the last of its changes to each partition
    puts. -/
theorem holdsLast_changes (c : Coordinator) (tables : List String) (relief : Nat) :
    (c.recordedAt (c.committing tables)).HoldsLast (c.changes tables relief) := by
  intro name id edit hedit
  cases hheld : (c.recordedAt (c.committing tables)).states[toLex (name, id)]? with
  | none =>
    obtain ⟨found, -, hfound⟩ := exists_of_lastSome hedit
    split at hfound
    · rename_i htouched
      cases hfound
      unfold Recorded.reads
      split
      · obtain ⟨rfl, rfl⟩ := StateKey.partition.inj htouched
        rw [hheld]
        rfl
      · rfl
    · cases hfound
  | some held =>
    have hput := c.lastEdit_positions (c.committing tables) name id
    rw [hheld, Option.map_some] at hput
    -- after the positions, no change is of a partition they record
    have hspares : ∀ {edits : List StateEdit}, (∀ edit ∈ edits, edit.moves name id = none) →
        lastEdit name id edits = none := fun hmoves => lastSome_eq_none.mpr fun edit hmem =>
      if_neg fun htouched => touched_eq_iff.mp htouched (hmoves edit hmem)
    have hcompleted : lastEdit name id (((c.streams.map StreamRun.prepared).filter
        StreamRun.completes).flatMap completedDelta) = none := by
      refine hspares fun edit hmem => ?_
      obtain ⟨other, -, hmem⟩ := List.mem_flatMap.mp hmem
      exact (spares_completedDelta hmem name).1 id
    have htables : lastEdit name id (tables.map fun record => .put (.table record)) = none :=
      hspares (List.forall_mem_map.mpr fun _ _ => rfl)
    have hdelta : lastEdit name id (c.prepare tables).delta
        = some (.put (.partition name id held c.epoch)) := by
      unfold lastEdit at hput hcompleted htables ⊢
      rw [delta_prepare]
      simp only [lastSome_append, htables, hcompleted, hput, Option.none_or, Option.some_or]
    have hrelieved : lastEdit name id ((c.prepare tables).coordinator.relieve
        (c.prepare tables).delta relief) = none := by
      refine hspares (List.forall_mem_map.mpr fun marker hmarker => ?_)
      by_contra hmoves
      obtain ⟨rfl, rfl⟩ := StateKey.partition.inj (touched_eq_iff.mpr hmoves)
      obtain ⟨put, hmem, hfound⟩ := exists_of_lastSome hdelta
      split at hfound
      · rename_i htouched
        exact touched_eq_iff.mp htouched (lastSome_eq_none.mp (mem_forgotten hmarker).2 put hmem)
      · cases hfound
    rw [changes, lastEdit, lastSome_append, ← lastEdit, ← lastEdit, hrelieved, hdelta] at hedit
    cases hedit
    rw [Recorded.reads, hheld]
    rfl

/-- An edit, whichever table it is of. -/
def ofTable : StateEdit → StateEdit
  | .put (.table _) => .put (.table "")
  | .delete (.table _) => .delete (.table "")
  | edit => edit

/-- A landing keeps the done markers that landing the commit's records, those of `edits`, from its
    positions leaves. -/
theorem done_landing {K V : Type} [DecidableEq K] (codec : Codec K V) (c : Coordinator)
    (tables : List String) (relief : Nat) {edits : List Edit}
    (hedits : edits.map Edit.ofStreams = (c.changes tables relief).map ofTable) :
    (c.landing tables relief).done = c.done.landed codec (edits.map (Edit.change codec))
      (c.recordedAt (c.committing tables)) := by
  have hlast : ∀ name id, lastEdit name id (edits.map Edit.ofStreams)
      = lastEdit name id (c.changes tables relief) := by
    intro name id
    rw [hedits, lastEdit, lastSome_map]
    refine lastSome_congr fun edit _ => ?_
    cases edit with
    | put entry => cases entry <;> rfl
    | delete key => cases key <;> rfl
  have hholds : (c.recordedAt (c.committing tables)).HoldsLast (edits.map Edit.ofStreams) := by
    intro name id
    rw [hlast]
    exact c.holdsLast_changes tables relief name id
  rw [landing_eq, DoneMarkers.landed_eq codec hholds]
  refine OrdMap.ext fun key => ?_
  obtain ⟨⟨name, id⟩, rfl⟩ := toLex.surjective key
  rw [DoneMarkers.getElem?_markersLanded, DoneMarkers.getElem?_markersLanded, hlast]

end Coordinator

end Rdlt.Engine
