/-
  Rdlt.Engine.Coordinator.Recording

  What a commit that lands does to stored state: of a stream that tracks its
  partitions it records the phase the stream reads, and of it the phase's
  starts, where the commit is the phase's first, and then the positions of its
  own reads.
-/

import Rdlt.Engine.Coordinator.Done
import Rdlt.Engine.Coordinator.Planning

namespace Rdlt.Engine

open Lib

variable {opened : Opened} {trace : List Happened} {stored : PipelineState} {c : Coordinator}
  {change : StateEdit} {name : StreamName} {view : PhaseView} {id : PartitionId} {commit : Landed}
  {other : StreamRun}

/-- Where the changes of the phase a stream began move partition `id`: to its start, else nowhere
    where it is stale. -/
def Begun.moves (begun : Begun) (id : PartitionId) : Option (Option PartitionState) :=
  ((begun.starts[id]?).map fun start => some (.cursor start)).or
    (if id ∈ begun.stale then some none else none)

/-- A change that is of no partition of `name`, nor of its phase. -/
def Spares (change : StateEdit) (name : StreamName) : Prop :=
  (∀ id, change.moves name id = none) ∧ change.rephases name = none

/-- A stream as a commit that takes what it is to record leaves it. -/
def StreamRun.prepared (run : StreamRun) : StreamRun :=
  { run with phases := run.phases.map Phases.taken, sequences := none }

/-- The committed positions of a phase of `stream` once one more position is recorded. -/
def Coordinator.recording (partitions : List PartitionRun) (stream : Nat)
    (reading : OrdMap PartitionId Nat) (committed : OrdMap PartitionId PartitionState)
    (entry : Nat × PartitionState) : OrdMap PartitionId PartitionState :=
  match partitions[entry.1]? with
  | some run =>
    if run.stream = stream ∧ reading[run.id]? = some entry.1 then committed.insert run.id entry.2
    else committed
  | none => committed

/-- A phase of `stream` once positions are recorded. -/
def Phases.committing (phases : Phases) (partitions : List PartitionRun) (stream : Nat)
    (entries : List (Nat × PartitionState)) : Phases :=
  { phases with
    committed :=
      entries.foldl (Coordinator.recording partitions stream phases.reading) phases.committed }

namespace Coordinator

/-! ## The positions of a commit -/

/-- Where an entry of a commit's positions records partition `id` of `stream`, where it is of it. -/
def places (c : Coordinator) (stream : Nat) (id : PartitionId) (entry : Nat × PartitionState) :
    Option PartitionState :=
  (c.partitions[entry.1]?).bind fun run =>
    if run.stream = stream ∧ run.id = id then some entry.2 else none

def recordsAt (c : Coordinator) (positions : OrdMap Nat PartitionState) (stream : Nat)
    (id : PartitionId) : Option PartitionState :=
  lastSome (c.places stream id) positions.toList

abbrev committing (c : Coordinator) (tables : List String) : OrdMap Nat PartitionState :=
  (c.prepare tables).collected.positions

theorem Follows.name_inj (h : c.Follows opened trace) {stream other : Nat} {run run' : StreamRun}
    (hrun : c.streams[stream]? = some run) (hrun' : c.streams[other]? = some run')
    (hname : run.name = run'.name) : stream = other := by
  have hbound : ∀ {stream run}, c.streams[stream]? = some run → stream < opened.streams.length := by
    intro stream run hrun
    rw [← h.loaded]
    exact (List.getElem?_eq_some_iff.mp hrun).1
  have hloaded := List.getElem?_eq_getElem (hbound hrun)
  have hloaded' := List.getElem?_eq_getElem (hbound hrun')
  have hsame :=
    ((h.streams hrun hloaded).name.symm.trans hname).trans (h.streams hrun' hloaded').name
  refine (List.getElem?_inj (by simpa using hbound hrun) opened.distinct).mp ?_
  simp only [List.getElem?_map, hloaded, hloaded', Option.map_some]
  exact congrArg some hsame

/-- The changes recording positions move a partition where the positions record it. -/
theorem lastSome_moves_positions (h : c.Follows opened trace) {stream : Nat} {run : StreamRun}
    (hrun : c.streams[stream]? = some run) (positions : OrdMap Nat PartitionState)
    (id : PartitionId) : lastSome (StateEdit.moves run.name id)
        (positions.toList.flatMap fun entry => c.position entry.1 entry.2)
      = (c.recordsAt positions stream id).map some := by
  rw [lastSome_flatMap, recordsAt, ← lastSome_optionMap]
  refine lastSome_congr fun entry _ => ?_
  cases hread : c.partitions[entry.1]? with
  | none => simp [position, places, hread]
  | some read =>
    cases hstream : c.streams[read.stream]? with
    | none =>
      have hother : read.stream ≠ stream := by
        rintro rfl
        rw [hrun] at hstream
        cases hstream
      simp [position, places, hread, hstream, hother]
    | some other =>
      have hname : other.name = run.name ↔ read.stream = stream := by
        constructor
        · exact h.name_inj hstream hrun
        · rintro rfl
          rw [hrun] at hstream
          rw [Option.some.inj hstream]
      simp only [position, places, hread, hstream, Option.bind_some, Option.map_some,
        Option.toList_some, lastSome_cons, lastSome_nil, Option.none_or,
        StateEdit.moves, hname]
      split <;> rfl

/-! ## The changes of a phase -/

theorem lastSome_moves_begunDelta (epoch : Epoch) (name : StreamName) (phase : Nat) (begun : Begun)
    (id : PartitionId) :
    lastSome (StateEdit.moves name id) (begunDelta epoch name phase begun) = begun.moves id := by
  have hstarts : lastSome (StateEdit.moves name id)
        (begun.starts.toList.map fun start =>
          .put (.partition name start.1 (.cursor start.2) epoch))
      = (begun.starts[id]?).map fun start => some (.cursor start) := by
    rw [lastSome_map, ← OrdMap.lastSome_toList begun.starts id
      fun start => some (PartitionState.cursor start)]
    refine lastSome_congr fun start _ => ?_
    simp [StateEdit.moves]
  have hstale : lastSome (StateEdit.moves name id)
        (begun.stale.map fun id => .delete (.partition name id))
      = if id ∈ begun.stale then some none else none := by
    rw [lastSome_map]
    induction begun.stale with
    | nil => rfl
    | cons other stale ih =>
      rw [lastSome_cons, ih]
      by_cases hsame : id = other
      · simp [StateEdit.moves, hsame]
        split <;> rfl
      · simp [StateEdit.moves, hsame, Ne.symm hsame]
  rw [begunDelta, lastSome_append, lastSome_append, hstarts, hstale, lastSome_cons,
    lastSome_nil, Begun.moves]
  rfl

theorem moves_of_mem_begunDelta {epoch : Epoch} {other : StreamName} {phase : Nat} {begun : Begun}
    (hchange : change ∈ begunDelta epoch other phase begun) (hname : other ≠ name)
    (id : PartitionId) :
    change.moves name id = none ∧ change.rephases name = none := by
  simp only [begunDelta, List.mem_append, List.mem_map, List.mem_singleton] at hchange
  rcases hchange with (⟨_, _, rfl⟩ | ⟨_, _, rfl⟩) | rfl <;>
    simp [StateEdit.moves, StateEdit.rephases, hname]

theorem streamPhaseDelta_eq {run : StreamRun} {phases : Phases} (hphases : run.phases = some phases)
    (epoch : Epoch) : streamPhaseDelta epoch run
      = (phases.begun.map (begunDelta epoch run.name phases.phase)).getD [] := by
  rw [streamPhaseDelta, hphases]
  rfl

theorem lastSome_phaseDelta {β : Type} (h : c.Follows opened trace) {stream : Nat} {run : StreamRun}
    (hrun : c.streams[stream]? = some run) (about : StateEdit → Option β)
    (hothers : ∀ {other : StreamName} {phase : Nat} {begun : Begun} {change : StateEdit},
      change ∈ begunDelta c.epoch other phase begun → other ≠ run.name → about change = none) :
    lastSome about c.phaseDelta.1 = lastSome about (streamPhaseDelta c.epoch run) := by
  rw [phaseDelta, lastSome_flatMap]
  refine lastSome_of_unique hrun fun other run' hrun' hne => lastSome_eq_none.mpr ?_
  intro change hchange
  have hname : run'.name ≠ run.name := fun hsame => hne (h.name_inj hrun' hrun hsame)
  cases hphases : run'.phases with
  | none => simp [streamPhaseDelta, hphases] at hchange
  | some phases =>
    rw [streamPhaseDelta_eq hphases] at hchange
    cases hbegun : phases.begun with
    | none => simp [hbegun] at hchange
    | some begun =>
      rw [hbegun] at hchange
      exact hothers hchange hname

/-! ## The changes of a commit -/

theorem spares_cycleDelta (h : c.Follows opened trace) {stream : Nat} {run : StreamRun}
    {phases : Phases} (hrun : c.streams[stream]? = some run) (hphases : run.phases = some phases)
    (hother : other ∈ c.streams) (hchange : change ∈ cycleDelta other) :
    Spares change run.name := by
  obtain ⟨index, hindex⟩ := List.mem_iff_getElem?.mp hother
  cases hcycle : other.cycle.filter fun cycle => !cycle.recorded with
  | none => simp [cycleDelta, hcycle] at hchange
  | some cycle =>
    -- A stream with phases has no full read: the one that does has another name.
    have hname : other.name ≠ run.name := by
      intro hsame
      obtain rfl := h.name_inj hindex hrun hsame
      cases hindex.symm.trans hrun
      obtain ⟨loaded, hloaded, -⟩ := h.tracks (phases_eq_some.mpr ⟨other, hrun, hphases⟩)
      have hnone := (h.streams hrun hloaded).uncycled (by rw [hphases]; rfl)
      rw [hnone] at hcycle
      cases hcycle
    simp only [cycleDelta, hcycle, Option.elim_some, List.mem_append, List.mem_map,
      List.mem_singleton] at hchange
    rcases hchange with ⟨_, _, rfl⟩ | rfl
    · exact ⟨fun id => by simp [StateEdit.moves, hname], rfl⟩
    · exact ⟨fun id => rfl, rfl⟩

theorem spares_completedDelta (hchange : change ∈ completedDelta other) (name : StreamName) :
    Spares change name := by
  cases hcycle : other.cycle with
  | none => simp [completedDelta, hcycle] at hchange
  | some cycle =>
    simp only [completedDelta, hcycle, Option.elim_some, List.mem_cons, List.not_mem_nil,
      or_false] at hchange
    rcases hchange with rfl | rfl <;> exact ⟨fun id => rfl, rfl⟩

theorem streams_prepare (c : Coordinator) (tables : List String) :
    (c.prepare tables).coordinator.streams = c.streams.map StreamRun.prepared := by
  simp only [prepare, sequencesDelta, collect, phaseDelta, List.map_map]
  rfl

theorem position_prepare (c : Coordinator) (tables : List String) (index : Nat)
    (state : PartitionState) :
    (c.prepare tables).coordinator.position index state = c.position index state := by
  simp only [position, streams_prepare, List.getElem?_map]
  change ((c.partitions[index]?).bind fun run => _).toList = _
  congr 2
  funext run
  cases c.streams[run.stream]? <;> rfl

theorem delta_prepare (c : Coordinator) (tables : List String) : (c.prepare tables).delta
      = c.phaseDelta.1 ++ c.phaseDelta.2.collect.2.sequencesDelta.1
        ++ ((c.streams.map StreamRun.prepared).flatMap cycleDelta
          ++ ((c.committing tables).toList.flatMap fun entry => c.position entry.1 entry.2)
          ++ ((c.streams.map StreamRun.prepared).filter StreamRun.completes).flatMap completedDelta)
        ++ tables.map fun record => .put (.table record) := by
  simp only [← streams_prepare c tables, ← position_prepare c tables]
  rfl

section

variable (h : c.Follows opened trace) {stream : Nat} {run : StreamRun} {phases : Phases}
  (hrun : c.streams[stream]? = some run) (hphases : run.phases = some phases) (tables : List String)
include h hrun hphases

/-- What the changes of a commit that is about a stream say of it: where its positions record its
    partitions, else what the changes of the phase it began do. -/
theorem lastSome_prepare {β : Type} (about : StateEdit → Option β)
    (hspares : ∀ {change : StateEdit}, Spares change run.name → about change = none)
    (hothers : ∀ {other : StreamName} {phase : Nat} {begun : Begun} {change : StateEdit},
      change ∈ begunDelta c.epoch other phase begun → other ≠ run.name → about change = none) :
    lastSome about (c.prepare tables).delta
      = (lastSome about ((c.committing tables).toList.flatMap fun entry =>
            c.position entry.1 entry.2)).or
          (lastSome about (streamPhaseDelta c.epoch run)) := by
  have hcycles : lastSome about
      ((c.streams.map StreamRun.prepared).flatMap cycleDelta) = none := by
    refine lastSome_eq_none.mpr fun change hchange => ?_
    obtain ⟨_, hprepared, hchange⟩ := List.mem_flatMap.mp hchange
    obtain ⟨other, hother, rfl⟩ := List.mem_map.mp hprepared
    have hcycle : change ∈ cycleDelta other := hchange
    exact hspares (spares_cycleDelta h hrun hphases hother hcycle)
  have hcompleted : lastSome about
      (((c.streams.map StreamRun.prepared).filter StreamRun.completes).flatMap completedDelta)
        = none := by
    refine lastSome_eq_none.mpr fun change hchange => ?_
    obtain ⟨other, -, hchange⟩ := List.mem_flatMap.mp hchange
    exact hspares (spares_completedDelta hchange run.name)
  have htables : lastSome about (tables.map fun record => .put (.table record)) = none := by
    refine lastSome_eq_none.mpr fun change hchange => ?_
    obtain ⟨record, -, rfl⟩ := List.mem_map.mp hchange
    exact hspares ⟨fun _ => rfl, rfl⟩
  have hsequences : lastSome about (c.phaseDelta.2.collect.2.sequencesDelta.1) = none := by
    refine lastSome_eq_none.mpr fun change hchange => ?_
    obtain ⟨other, -, hchange⟩ := List.mem_filterMap.mp hchange
    obtain ⟨record, -, rfl⟩ := Option.map_eq_some_iff.mp hchange
    exact hspares ⟨fun _ => rfl, rfl⟩
  rw [delta_prepare]
  simp only [lastSome_append, hcycles, hcompleted, htables, hsequences, Option.none_or,
    Option.or_none]
  rw [lastSome_phaseDelta h hrun about hothers]

theorem lastSome_moves_prepare (id : PartitionId) :
    lastSome (StateEdit.moves run.name id) (c.prepare tables).delta
      = ((c.recordsAt (c.committing tables) stream id).map some).or
          (phases.begun.bind fun begun => begun.moves id) := by
  rw [lastSome_prepare h hrun hphases tables _ (fun hspares => hspares.1 id)
    (fun hchange hname => (moves_of_mem_begunDelta hchange hname id).1),
    lastSome_moves_positions h hrun, streamPhaseDelta_eq hphases]
  congr 1
  cases phases.begun with
  | none => rfl
  | some begun => exact lastSome_moves_begunDelta c.epoch run.name phases.phase begun id

/-- The phase a commit's changes record of a stream that tracks its partitions: the one it began. -/
theorem lastSome_rephases_prepare :
    lastSome (StateEdit.rephases run.name) (c.prepare tables).delta
      = phases.begun.map fun _ => phases.phase := by
  rw [lastSome_prepare h hrun hphases tables _ (fun hspares => hspares.2)
    (fun hchange hname => (moves_of_mem_begunDelta hchange hname "").2)]
  have hpositions : lastSome (StateEdit.rephases run.name)
      ((c.committing tables).toList.flatMap fun entry =>
        c.position entry.1 entry.2) = none := by
    refine lastSome_eq_none.mpr fun change hchange => ?_
    obtain ⟨entry, -, hchange⟩ := List.mem_flatMap.mp hchange
    obtain ⟨read, -, hread⟩ := Option.bind_eq_some_iff.mp (Option.mem_toList.mp hchange)
    obtain ⟨other, -, rfl⟩ := Option.map_eq_some_iff.mp hread
    rfl
  rw [hpositions, Option.none_or, streamPhaseDelta_eq hphases]
  cases phases.begun with
  | none => rfl
  | some begun => simp [begunDelta, lastSome_append, lastSome_cons, StateEdit.rephases]

end

/-! ## What state records -/

section

variable (h : c.Follows opened trace)
include h

theorem Follows.reading_of_sealing {place : Nat} {read : PartitionRun}
    {phases : Phases} (hsealing : place ∈ c.sealing) (hread : c.partitions[place]? = some read)
    (hphases : c.phases read.stream = some phases) : phases.reading[read.id]? = some place :=
  h.sound.found (held_slots_of hread) (.inr hsealing) (index_slots_of hphases)

theorem mem_sealing_of_positions (tables : List String)
    {entry : Nat × PartitionState} (hentry : entry ∈ (c.committing tables).toList) :
    entry.1 ∈ c.sealing := by
  have hposition : (c.waiting.standing.map fun _ standing => standing.position)[entry.1]?
      = some entry.2 := (OrdMap.mem_toList _).mp hentry
  rw [Std.ExtTreeMap.getElem?_map] at hposition
  obtain ⟨standing, hstanding, -⟩ := Option.map_eq_some_iff.mp hposition
  exact h.standing.mpr (by rw [hstanding]; rfl)

theorem lastSome_positions {stream : Nat} {phases : Phases}
    (hphases : c.phases stream = some phases) (htracks : phases.Tracks view) {tables : List String}
    (hcommit : commit.positions = c.readsAt (c.committing tables)) (id : PartitionId) :
    lastSome (fun entry : PartitionId × PartitionState =>
        if entry.1 = id then some entry.2 else none) (view.positions stream commit)
      = c.recordsAt (c.committing tables) stream id := by
  rw [PhaseView.positions, hcommit, lastSome_map, lastSome_filter, readsAt,
    lastSome_filterMap, recordsAt]
  refine lastSome_congr fun entry hentry => ?_
  have hsealing := mem_sealing_of_positions h tables hentry
  cases hread : c.partitions[entry.1]? with
  | none => simp [places, hread]
  | some read =>
    simp only [places, hread, Option.map_some, Option.bind_some, Function.comp_apply]
    by_cases hstream : read.stream = stream
    · have hreads : entry.1 ∈ view.reads :=
        (htracks.reading (h.reading_of_sealing hsealing hread (hstream ▸ hphases))).1
      simp [hstream, hreads]
    · simp [hstream]

end

/-- Where a stream's phase stands before a commit's positions, as the changes of the phase leave
    it. -/
theorem base_eq {phases : Phases} (htracks : phases.Tracks view)
    (hrecorded : view.Recorded stored name)
    (hstales : ∀ begun, phases.begun = some begun → ∀ id, stored.position name id ≠ none →
      id ∈ begun.stale)
    (id : PartitionId) :
    (phases.begun.bind fun begun => begun.moves id).getD (stored.position name id)
      = if view.begun = false ∧ id ∈ view.forgotten then none else view.base[id]? := by
  cases hbegun : phases.begun with
  | none =>
    obtain ⟨hfalse, -⟩ := htracks.recorded hbegun
    simp [PhaseView.base, hfalse, hrecorded.positions id, PhaseView.held]
  | some begun =>
    obtain ⟨htrue, hstarts, -⟩ := htracks.begun hbegun
    have hbase : view.base[id]? = (begun.starts[id]?).map fun start => .cursor start := by
      simp [PhaseView.base, htrue, hstarts]
    rw [if_neg (by simp [htrue]), hbase, Option.bind_some, Begun.moves]
    cases begun.starts[id]? with
    | some start => simp
    | none =>
      simp only [Option.map_none, Option.none_or]
      split
      · rfl
      · rename_i hfresh
        by_contra hheld
        exact hfresh (hstales begun hbegun id hheld)

theorem touched_eq_iff : touched change = .partition name id ↔ change.moves name id ≠ none := by
  cases change with
  | put entry => cases entry <;> simp [touched, StateEdit.moves]
  | delete key => cases key <;> simp [touched, StateEdit.moves]

theorem mem_forgotten {delta : List StateEdit} {count : Nat}
    (h : (name, id) ∈ c.forgotten delta count) : (∃ epoch, c.done[toLex (name, id)]? = some epoch) ∧
      lastSome (StateEdit.moves name id) delta = none := by
  have hunplanned := List.mem_of_mem_take h
  simp only [unplanned, List.mem_filter, Bool.and_eq_true, decide_eq_true_eq] at hunplanned
  obtain ⟨hlisted, -, huntouched⟩ := hunplanned
  obtain ⟨entry, hentry, hkey⟩ := List.mem_map.mp hlisted
  have hentry : entry ∈ c.done.toList := (List.perm_insertionSort _ _).mem_iff.mp hentry
  refine ⟨⟨entry.2, ?_⟩, lastSome_eq_none.mpr fun change hchange => ?_⟩
  · rw [← hkey, toLex_ofLex]
    exact (OrdMap.mem_toList c.done).mp hentry
  · by_contra hmoves
    exact huntouched (List.mem_map.mpr ⟨change, hchange, touched_eq_iff.mpr hmoves⟩)

theorem lastSome_moves_relieve (c : Coordinator) (delta : List StateEdit) (count : Nat)
    (name : StreamName) (id : PartitionId) :
    lastSome (StateEdit.moves name id) (c.relieve delta count)
      = if (name, id) ∈ c.forgotten delta count then some none else none := by
  rw [relieve, lastSome_map]
  induction c.forgotten delta count with
  | nil => rfl
  | cons marker markers ih =>
    rw [lastSome_cons, ih]
    by_cases hsame : (name, id) = marker
    · subst hsame
      by_cases hmem : (name, id) ∈ markers <;> simp [StateEdit.moves, hmem]
    · have hother : ¬ (marker.1 = name ∧ marker.2 = id) := fun h =>
        hsame (Prod.ext h.1.symm h.2.symm)
      by_cases hmem : (name, id) ∈ markers <;> simp [StateEdit.moves, hmem, hsame, hother]

theorem lastSome_rephases_relieve (c : Coordinator) (delta : List StateEdit) (count : Nat)
    (name : StreamName) :
    lastSome (StateEdit.rephases name) (c.relieve delta count) = none := by
  refine lastSome_eq_none.mpr fun change hchange => ?_
  obtain ⟨marker, -, rfl⟩ := List.mem_map.mp hchange
  rfl

/-- What a commit that lands is made of. -/
structure Lands (c : Coordinator) (tables : List String) (relief : Nat) (commit : Landed) :
    Prop where
  positions : commit.positions = c.readsAt (c.prepare tables).collected.positions
  reported : commit.reported = c.readsAt (c.prepare tables).collected.reported
  forgotten : commit.forgotten
    = (c.prepare tables).coordinator.forgotten (c.prepare tables).delta relief

/-- The changes of a commit, with those that make room for it. -/
def changes (c : Coordinator) (tables : List String) (relief : Nat) : List StateEdit :=
  (c.prepare tables).delta
    ++ (c.prepare tables).coordinator.relieve (c.prepare tables).delta relief

theorem mem_positions_iff {stream : Nat} : id ∈ (view.positions stream commit).map Prod.fst ↔
      lastSome (fun entry : PartitionId × PartitionState =>
        if entry.1 = id then some entry.2 else none) (view.positions stream commit) ≠ none := by
  rw [Ne, lastSome_eq_none]
  constructor
  · intro hmem hnone
    obtain ⟨entry, hentry, rfl⟩ := List.mem_map.mp hmem
    simpa using hnone entry hentry
  · intro hsome
    by_contra hmem
    refine hsome fun entry hentry => if_neg fun hid => hmem (List.mem_map.mpr ⟨entry, hentry, hid⟩)

/-- A commit that lands leaves state recording each stream as its view then says. -/
theorem recorded_landed (h : c.Follows opened trace) (hrecorded : opened.Recorded trace stored)
    (hstales : c.Stales stored) (hdone : c.done = DoneMarkers.ofState stored) {tables : List String}
    {relief : Nat} (hlands : c.Lands tables relief commit) :
    opened.Recorded (trace ++ [.landed commit]) (stored.apply (c.changes tables relief)) := by
  intro stream loaded hloaded htracked
  have hbound : stream < c.streams.length := by
    rw [h.loaded]
    exact (List.getElem?_eq_some_iff.mp hloaded).1
  obtain ⟨run, hrun⟩ : ∃ run, c.streams[stream]? = some run := ⟨_, List.getElem?_eq_getElem hbound⟩
  have hfollows := h.streams hrun hloaded
  obtain ⟨phases, hphases⟩ := Option.isSome_iff_exists.mp (hfollows.tracked.trans htracked)
  have htracks := hfollows.phases hphases
  have hstream := hrecorded stream loaded hloaded htracked
  have hstale := fun begun hbegun id => hstales stream run phases begun hrun hphases hbegun id
  rw [← hfollows.name] at hstream
  rw [Opened.view_concat, ← hfollows.name]
  generalize opened.view loaded stream trace = view at htracks hstream
  have hpositions := lastSome_positions h (phases_eq_some.mpr ⟨run, hrun, hphases⟩) htracks
    hlands.positions
  have hmoves := lastSome_moves_prepare h hrun hphases tables
  have hnewly : ∀ id, id ∈ ((commit.forgotten.filter fun marker => marker.1 = run.name).map
      Prod.snd).toFinset ↔ (run.name, id) ∈ commit.forgotten := by
    intro id
    simp only [List.mem_toFinset, List.mem_map, List.mem_filter, decide_eq_true_eq]
    constructor
    · rintro ⟨marker, ⟨hmarker, hname⟩, rfl⟩
      rwa [← hname]
    · intro hmarker
      exact ⟨_, ⟨hmarker, rfl⟩, rfl⟩
  have hids : ∀ id, id ∈ ((view.positions stream commit).map Prod.fst).toFinset ↔
      c.recordsAt (c.committing tables) stream id ≠ none := by
    intro id
    rw [List.mem_toFinset, mem_positions_iff, hpositions]
  have hrecorded' : ∀ id, (view.landed stream run.name commit).recorded[id]?
      = (c.recordsAt (c.committing tables) stream id).or view.base[id]? := by
    intro id
    simp only [PhaseView.landed]
    rw [OrdMap.getElem?_foldl_insert, hpositions]
  have hforgotten' : ∀ id, id ∈ (view.landed stream run.name commit).forgotten ↔
      (view.begun = false ∧ id ∈ view.forgotten ∧
        c.recordsAt (c.committing tables) stream id = none) ∨
      (run.name, id) ∈ commit.forgotten := by
    intro id
    simp only [PhaseView.landed, Finset.mem_union, Finset.mem_sdiff, hids, hnewly, not_not]
    cases view.begun <;> simp
  have hbase := base_eq htracks hstream hstale
  refine ⟨?_, fun id => ?_, fun id hid => ?_⟩
  · rw [PipelineState.phase_apply, changes, lastSome_append, lastSome_rephases_relieve,
      Option.none_or, lastSome_rephases_prepare h hrun hphases]
    simp only [PhaseView.saw, PhaseView.landed]
    rw [← htracks.phase]
    cases hbegun : phases.begun with
    | none =>
      obtain ⟨-, hsame, -⟩ := htracks.recorded hbegun
      rw [Option.map_none, Option.getD_none, hstream.phase, hsame, htracks.phase]
    | some begun => rfl
  · rw [PipelineState.position_apply, changes, lastSome_append, lastSome_moves_relieve, hmoves,
      ← hlands.forgotten]
    simp only [PhaseView.saw, PhaseView.held, hforgotten', hrecorded']
    by_cases hnew : (run.name, id) ∈ commit.forgotten
    · simp [hnew]
    · simp only [hnew, if_false, Option.none_or, or_false]
      cases hplaced : c.recordsAt (c.committing tables) stream id with
      | some state => simp
      | none =>
        simp only [Option.map_none, Option.none_or, and_true]
        exact hbase id
  · simp only [PhaseView.saw, hforgotten'] at hid
    simp only [PhaseView.saw, hrecorded']
    rcases hid with ⟨hfalse, hold, hnone⟩ | hnew
    · rw [hnone, Option.none_or, PhaseView.base, if_neg (by simp [hfalse])]
      exact hstream.forgotten id hold
    · rw [hlands.forgotten] at hnew
      obtain ⟨⟨epoch, hmarker⟩, huntouched⟩ := mem_forgotten hnew
      have hposition : stored.position run.name id = some .done :=
        DoneMarkers.position_of_mem (hdone ▸ hmarker)
      rw [hmoves] at huntouched
      obtain ⟨hnone, hphase⟩ := Option.or_eq_none_iff.mp huntouched
      rw [Option.map_eq_none_iff.mp hnone, Option.none_or]
      have hheld := hbase id
      rw [hphase, Option.getD_none, hposition] at hheld
      split at hheld
      · cases hheld
      · exact hheld.symm

/-! ## What the coordinator records -/

theorem streams_recordPositions (c : Coordinator) (positions : OrdMap Nat PartitionState)
    (stream : Nat) : (c.recordPositions positions).streams[stream]?
      = (c.streams[stream]?).map fun run =>
          { run with
            phases :=
              run.phases.map (Phases.committing · c.partitions stream positions.toList) } := by
  unfold recordPositions
  induction positions.toList generalizing c with
  | nil =>
    rw [List.foldl_nil]
    have hsame : (Phases.committing · c.partitions stream []) = id := rfl
    simp only [hsame, Option.map_id]
    exact Option.map_id'.symm ▸ rfl
  | cons entry entries ih =>
    rw [List.foldl_cons]
    cases hread : c.partitions[entry.1]? with
    | none =>
      rw [ih]
      congr 1
      funext run
      congr 2
      funext phases
      simp [Phases.committing, recording, hread]
    | some read =>
      rw [ih]
      simp only [setPhases, List.getElem?_modify]
      cases c.streams[stream]? with
      | none => rfl
      | some run =>
        by_cases hstream : read.stream = stream
        · simp only [hstream, Option.map_eq_map, Option.map_some, if_true, Option.map_map]
          congr 3
          funext phases
          simp only [Function.comp_apply, Phases.committing, List.foldl_cons, recording, hread,
            hstream, true_and]
          split <;> rfl
        · simp only [hstream, Option.map_eq_map, Option.map_some, if_false]
          congr 3
          funext phases
          simp only [Phases.committing, List.foldl_cons, recording, hread, hstream, false_and,
            if_false]

/-- What is committed of a phase's partition once a commit's positions are recorded. -/
theorem getElem?_committing (h : c.Follows opened trace) {stream : Nat} {phases held : Phases}
    (hphases : c.phases stream = some phases) (hreading : held.reading = phases.reading)
    (tables : List String) (id : PartitionId) :
    (held.committing c.partitions stream (c.committing tables).toList).committed[id]?
      = (c.recordsAt (c.committing tables) stream id).or held.committed[id]? := by
  have hstep : ∀ (committed : OrdMap PartitionId PartitionState) (entry : Nat × PartitionState),
      (recording c.partitions stream held.reading committed entry)[id]?
        = (((c.partitions[entry.1]?).bind fun run =>
            if (run.stream = stream ∧ held.reading[run.id]? = some entry.1) ∧ run.id = id then
              some entry.2 else none).map some).getD committed[id]? := by
    intro committed entry
    unfold recording
    cases c.partitions[entry.1]? with
    | none => rfl
    | some run =>
      simp only [Option.bind_some]
      by_cases hits : run.stream = stream ∧ held.reading[run.id]? = some entry.1
      · rw [if_pos hits, OrdMap.getElem?_insert]
        by_cases hid : run.id = id
        · simp [hits.1, hid, hid ▸ hits.2]
        · simp [hid]
      · simp [hits]
  simp only [Phases.committing]
  rw [lookup_foldl _ (fun committed : OrdMap PartitionId PartitionState => committed[id]?) _
    hstep, lastSome_optionMap]
  have hsame :
      lastSome (fun entry : Nat × PartitionState => (c.partitions[entry.1]?).bind fun run =>
        if (run.stream = stream ∧ held.reading[run.id]? = some entry.1) ∧ run.id = id then
          some entry.2 else none) (c.committing tables).toList
      = c.recordsAt (c.committing tables) stream id := by
    refine lastSome_congr fun entry hentry => ?_
    have hsealing := mem_sealing_of_positions h tables hentry
    cases hread : c.partitions[entry.1]? with
    | none => simp [places, hread]
    | some read =>
      simp only [places, hread, Option.bind_some]
      by_cases hstream : read.stream = stream
      · have hplace := h.reading_of_sealing hsealing hread (hstream ▸ hphases)
        simp [hstream, hreading, hplace]
      · simp [hstream]
  rw [hsame]
  cases c.recordsAt (c.committing tables) stream id <;> rfl

theorem getElem?_committed_taken {phases : Phases} (htracks : phases.Tracks view)
    (id : PartitionId) : phases.taken.committed[id]? = view.base[id]? := by
  cases hbegun : phases.begun with
  | none =>
    obtain ⟨hfalse, -, hcommitted⟩ := htracks.recorded hbegun
    simp [Phases.taken, hbegun, PhaseView.base, hfalse, hcommitted]
  | some begun =>
    obtain ⟨htrue, hstarts, hnone⟩ := htracks.begun hbegun
    have hfold : phases.taken.committed
        = (begun.starts.toList.map fun start => (start.1, PartitionState.cursor start.2)).foldl
            (fun committed entry => committed.insert entry.1 entry.2) ∅ := by
      simp [Phases.taken, hbegun, hnone, List.foldl_map]
    rw [hfold, OrdMap.getElem?_foldl_insert, lastSome_map]
    have hlast : lastSome ((fun entry : PartitionId × PartitionState =>
          if entry.1 = id then some entry.2 else none) ∘ fun start : PartitionId × Cursor =>
            (start.1, PartitionState.cursor start.2)) begun.starts.toList
        = (begun.starts[id]?).map .cursor := OrdMap.lastSome_toList begun.starts id _
    rw [hlast]
    simp [PhaseView.base, htrue, hstarts]

end Coordinator

end Rdlt.Engine
