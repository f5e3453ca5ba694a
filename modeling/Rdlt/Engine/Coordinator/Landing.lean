/-
  Rdlt.Engine.Coordinator.Landing

  The coordinator after a commit: one that landed and was answered leaves it
  following what happened, nothing waiting and each phase's committed positions
  those state records, and one with nothing to publish or record leaves what it
  follows as it was.
-/

import Rdlt.Engine.Coordinator.Recording

namespace Rdlt.Engine

variable {opened : Opened} {trace : List Happened} {c : Coordinator}

def StreamRun.landing (run : StreamRun) (partitions : List PartitionRun) (stream : Nat)
    (entries : List (Nat × PartitionState)) : StreamRun :=
  { run with
    cycle := run.cycle.map fun cycle => cycle.landed run.completes
    phases := run.phases.map fun phases => phases.taken.committing partitions stream entries
    sequences := none }

theorem Stands.landed {stood : Option Cursor} {stands : Option PartitionState}
    {waiting : Option Standing} (h : Stands stood stands waiting) :
    Stands stood ((waiting.map Standing.position).or stands) none := by
  cases waiting with
  | none => exact h
  | some waiting =>
    intro cursor hcursor
    exact h.1 cursor (by rw [Standing.told, Option.some.inj hcursor])

namespace Coordinator

variable {stream : Nat} {phases : Phases} {tables : List String}

/-! ## A commit landed -/

/-- The coordinator once a commit of all that waits landed and was answered. -/
def landing (c : Coordinator) (tables : List String) (relief : Nat) : Coordinator :=
  ({ (c.prepare tables).coordinator with abandoned := .new } : Coordinator).landed
    (c.prepare tables).collected.positions (c.changes tables relief)

theorem recordPositions_eq (c : Coordinator) (positions : Lib.OrdMap Nat PartitionState) :
    c.recordPositions positions = { c with streams := (c.recordPositions positions).streams } := by
  unfold recordPositions
  induction positions.toList generalizing c with
  | nil => rfl
  | cons entry entries ih =>
    rw [List.foldl_cons]
    cases c.partitions[entry.1]? with
    | none => exact ih c
    | some run =>
      rw [ih]
      rfl

section

variable (c) (tables) (relief : Nat)

theorem landing_eq : c.landing tables relief = { (c.prepare tables).coordinator with
          abandoned := .new
          streams := (c.landing tables relief).streams
          partitions := c.partitions.mapIdx fun index run =>
            run.landed (c.committing tables)[index]?
          done := markersLanded c.done (c.changes tables relief) } := by
  unfold landing landed
  dsimp only
  rw [recordPositions_eq]
  rfl

theorem slots_landing : (c.landing tables relief).slots = c.slots.settle := by
  rw [landing, slots_landed]
  exact slots_prepare c tables

theorem streams_landing : (c.landing tables relief).streams = c.streams.mapIdx fun stream run =>
          run.landing c.partitions stream (c.committing tables).toList := by
  refine List.ext_getElem? fun stream => ?_
  change (Coordinator.recordPositions _ _).streams[stream]? = _
  rw [streams_recordPositions]
  simp only [cyclesLanded, List.getElem?_map, List.getElem?_mapIdx, streams_prepare, Option.map_map]
  congr 1
  funext run
  simp only [Function.comp_apply, StreamRun.prepared, StreamRun.landing, Option.map_map]
  rfl

end

theorem Follows.tracks_landing (h : c.Follows opened trace)
    {view : PhaseView} (hphases : c.phases stream = some phases) (htracks : phases.Tracks view)
    {commit : Landed}
    (hcommit : commit.positions = c.readsAt (c.committing tables))
    (name : StreamName) : (phases.taken.committing c.partitions stream
        (c.committing tables).toList).Tracks (view.landed stream name commit) := by
  have htaken : phases.taken.phase = phases.phase ∧ phases.taken.begun = none := by
    unfold Phases.taken
    split
    · exact ⟨rfl, by assumption⟩
    · exact ⟨rfl, rfl⟩
  refine ⟨htaken.1.trans htracks.phase, fun hbegun => ?_, fun _ => ⟨rfl, rfl, fun id => ?_⟩,
    fun {id place} hplace => ?_⟩
  · cases htaken.2.symm.trans hbegun
  · rw [getElem?_committing h hphases (reading_taken phases), getElem?_committed_taken htracks,
      PhaseView.landed, Lib.OrdMap.getElem?_foldl_insert,
      lastSome_positions h hphases htracks hcommit]
  · have hreading : phases.taken.reading[id]? = some place := hplace
    rw [reading_taken] at hreading
    exact htracks.reading hreading

theorem Follows.landing (h : c.Follows opened trace) {commit : Landed}
    (hcommit : commit.positions = c.readsAt (c.committing tables)) (relief : Nat) :
    (c.landing tables relief).Follows opened (trace ++ [.landed commit]) := by
  refine ⟨?_, ?_, ?_, ?_, fun {place run} hrun =>
    ?_, ?_, fun {stream run loaded} hrun hloaded => ?_,
    fun hholder => ?_⟩
  · rw [slots_landing]
    exact h.sound.settle
  · rw [slots_landing, Watch.after_concat]
    exact h.live
  · intro read hread
    rw [Watch.after_concat] at hread
    cases hread
  · intro place
    rw [landing_eq]
    simp [prepare, sequencesDelta, collect]
  · rw [landing_eq] at hrun ⊢
    rw [lastStood_concat]
    simp only [List.getElem?_mapIdx] at hrun
    obtain ⟨earlier, hearlier, rfl⟩ := Option.map_eq_some_iff.mp hrun
    have hposition : (c.committing tables)[place]?
        = (c.waiting.standing[place]?).map Standing.position := Std.ExtTreeMap.getElem?_map ..
    rw [PartitionRun.landed, hposition]
    exact (h.stood hearlier).landed
  · rw [streams_landing, List.length_mapIdx]
    exact h.loaded
  · rw [streams_landing, List.getElem?_mapIdx] at hrun
    obtain ⟨earlier, hearlier, rfl⟩ := Option.map_eq_some_iff.mp hrun
    have hfollows := h.streams hearlier hloaded
    rw [Opened.view_concat]
    refine ⟨hfollows.name, by simpa [StreamRun.landing] using hfollows.tracked, fun hsome => ?_,
      fun hphases => ?_⟩
    · have hnone := hfollows.uncycled (by simpa [StreamRun.landing] using hsome)
      simp [StreamRun.landing, hnone]
    · obtain ⟨phases, hearlierPhases, rfl⟩ := Option.map_eq_some_iff.mp hphases
      exact h.tracks_landing (phases_eq_some.mpr ⟨earlier, hearlier, hearlierPhases⟩)
        (hfollows.phases hearlierPhases) hcommit loaded.plan.name
  · rw [slots_landing] at hholder
    rw [streams_landing, List.length_mapIdx, lastRead_concat]
    exact h.housed hholder

theorem begun_landing {relief : Nat}
    (h : (c.landing tables relief).phases stream = some phases) : phases.begun = none := by
  obtain ⟨run, hrun, hphases⟩ := phases_eq_some.mp h
  rw [streams_landing, List.getElem?_mapIdx] at hrun
  obtain ⟨earlier, -, rfl⟩ := Option.map_eq_some_iff.mp hrun
  obtain ⟨held, -, rfl⟩ := Option.map_eq_some_iff.mp hphases
  change held.taken.begun = none
  unfold Phases.taken
  split
  · assumption
  · rfl

/-! ## Nothing to commit -/

/-- A commit with nothing to record takes no seal, and no phase began. -/
theorem Follows.nothing (h : c.Follows opened trace) (hdelta : (c.prepare tables).delta = []) :
    c.sealing = ∅ ∧ ∀ run ∈ c.streams, ∀ phases, run.phases = some phases →
      phases.begun = none := by
  have hparts : c.phaseDelta.1 = [] ∧
      (c.prepare tables).coordinator.stateDelta (c.committing tables) = [] := by
    have hall : c.phaseDelta.1 ++ c.phaseDelta.2.collect.2.sequencesDelta.1
        ++ (c.prepare tables).coordinator.stateDelta (c.committing tables)
        ++ tables.map (fun record => .put (.table record)) = [] := hdelta
    simp only [List.append_eq_nil_iff] at hall
    exact ⟨hall.1.1.1, hall.1.2⟩
  refine ⟨Finset.eq_empty_iff_forall_notMem.mpr fun place hplace => ?_,
    fun run hrun phases hphases => ?_⟩
  · obtain ⟨standing, hstanding⟩ := Option.isSome_iff_exists.mp (h.standing.mp hplace)
    obtain ⟨holder, hholder⟩ := h.sound.pendingHeld hplace
    obtain ⟨read, hread, hgroup, -⟩ := held_slots hholder
    obtain ⟨run, hrun⟩ : ∃ run, c.streams[read.stream]? = some run :=
      ⟨_, List.getElem?_eq_getElem (hgroup ▸ (h.housed hholder).1)⟩
    have hentry : (place, standing.position) ∈ (c.committing tables).toList := by
      refine (Lib.OrdMap.mem_toList _).mpr ?_
      change (c.waiting.standing.map fun _ standing => standing.position)[place]? = _
      rw [Std.ExtTreeMap.getElem?_map, hstanding, Option.map_some]
    have hnone := hparts.2
    simp only [stateDelta, List.append_eq_nil_iff, List.flatMap_eq_nil_iff] at hnone
    have hposition := hnone.1.2 _ hentry
    rw [position_prepare] at hposition
    simp [position, hread, hrun] at hposition
  · have hnone := hparts.1
    simp only [phaseDelta, List.flatMap_eq_nil_iff] at hnone
    have hstream := hnone run hrun
    cases hbegun : phases.begun with
    | none => rfl
    | some begun => simp [streamPhaseDelta, hphases, hbegun, begunDelta] at hstream

theorem Follows.prepared (h : c.Follows opened trace) (hdelta : (c.prepare tables).delta = []) :
    (c.prepare tables).coordinator.Follows opened trace := by
  obtain ⟨hsealing, hbegun⟩ := h.nothing hdelta
  have hstanding : c.waiting.standing = ∅ := by
    refine Lib.OrdMap.ext fun place => ?_
    have hnone : ¬ (c.waiting.standing[place]?).isSome = true := by
      rw [← h.standing, hsealing]
      exact Finset.notMem_empty place
    rw [Option.not_isSome_iff_eq_none.mp hnone]
    simp
  refine h.keep ?_ ?_ hsealing.symm hstanding.symm (fun hrun => ⟨_, hrun, rfl⟩) ?_
    fun {stream run} hrun => ?_
  · rw [slots_prepare]
    exact h.sound.settle
  · rw [slots_prepare]
    rfl
  · rw [streams_prepare, List.length_map]
  · rw [streams_prepare, List.getElem?_map] at hrun
    obtain ⟨earlier, hearlier, rfl⟩ := Option.map_eq_some_iff.mp hrun
    refine ⟨earlier, hearlier, rfl, rfl, by simp [StreamRun.prepared], fun phases hphases => ?_⟩
    obtain ⟨held, hheld, rfl⟩ := Option.map_eq_some_iff.mp hphases
    have hnone := hbegun earlier (List.mem_of_getElem? hearlier) held hheld
    have hsame : held.taken = held := by simp [Phases.taken, hnone]
    exact ⟨held, hheld, fun _ => by rw [hsame]; exact id⟩

theorem begun_prepare
    (h : (c.prepare tables).coordinator.phases stream = some phases) : phases.begun = none := by
  obtain ⟨run, hrun, hphases⟩ := phases_eq_some.mp h
  rw [streams_prepare, List.getElem?_map] at hrun
  obtain ⟨earlier, -, rfl⟩ := Option.map_eq_some_iff.mp hrun
  obtain ⟨held, -, rfl⟩ := Option.map_eq_some_iff.mp hphases
  unfold Phases.taken
  split
  · assumption
  · rfl

end Coordinator

end Rdlt.Engine
