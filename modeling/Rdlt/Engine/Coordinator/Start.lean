/-
  Rdlt.Engine.Coordinator.Start

  An attempt as it starts: its streams, none of them read yet, follow what state
  records of them, and each in turn begins the phase its plan names, where that
  is a new one, and has its partitions' reads launched as any later launch is.
-/

import Rdlt.Engine.Coordinator.Landing
import Rdlt.Lib.Checked

namespace Rdlt.Engine

open Lib

variable {opened : Opened} {stored : PipelineState}

/-! ## Streams planned -/

/-- A stream planned from `state`, before anything of it is started. -/
def Planned.unspawned (planned : Planned) (state : StreamState) : StreamRun :=
  { planned.stream with
    remaining := 0
    phases := planned.stream.phases.map fun phases =>
      { phases with phase := state.phase, committed := state.partitions, begun := none } }

/-- How a stream planned from `state` starts: in the phase state records, or in a new one. -/
inductive Planned.Starts (planned : Planned) (state : StreamState) (named : PartitionPlan) : Prop
  | resumes (hphases : planned.stream.phases = (planned.unspawned state).phases)
      (hpartitions : planned.partitions = resumed state.partitions named.partitions ∨
        planned.partitions = [])
  | begins (next : Nat) (phases : Phases) (hbefore : (planned.unspawned state).phases = some phases)
      (hphases : planned.stream.phases = some (phases.begin next named.starts))
      (hpartitions : planned.partitions = named.partitions.map fun id => (id, named.starts[id]?))

/-- What a stream's planning leaves of it. -/
structure Planned.Prepares (planned : Planned) (loaded : Loaded) (follow : Bool)
    (stored : PipelineState) : Prop where
  name : planned.stream.name = loaded.plan.name
  remaining : planned.stream.remaining = planned.partitions.length
  tracked : planned.stream.phases.isSome = loaded.plan.tracked follow
  uncycled : planned.stream.phases.isSome → planned.stream.cycle = none
  unread : ∀ {phases}, planned.stream.phases = some phases → phases.reading = ∅ ∧
    phases.settled = false
  starts : planned.Starts (loaded.committed stored) loaded.planned

variable {loaded : Loaded} {follow : Bool}

theorem Loaded.committed_of_tracked (h : loaded.plan.tracked follow = true) :
    read loaded.plan (stored.stream loaded.plan.name) loaded.drawn
      = .incremental (stored.stream loaded.plan.name) := by
  unfold read
  cases hmode : loaded.plan.mode with
  | full => simp [StreamPlan.tracked, hmode] at h
  | incremental => rfl
  | cdc => rfl

theorem map_eq_ok {ε α β : Type} {f : α → β} {x : Except ε α} {b : β} (h : x.map f = .ok b) :
    ∃ a, x = .ok a ∧ f a = b := by
  cases x with
  | error e => cases h
  | ok a => exact ⟨a, rfl, Except.ok.inj h⟩

variable {state : StreamState} {named : PartitionPlan}

theorem planned_starts {plan : StreamPlan} {sequences : Option String} {cycle : Option Cycle}
    {partitioned : Partitioned} (h : partitions plan state named = .ok partitioned) :
    (planned plan follow sequences cycle partitioned).Starts state named := by
  unfold partitions at h
  split at h
  · rename_i phase hphase
    split at h
    · cases h
    · rename_i hmode
      have htracked : plan.tracked follow = true := by simp [StreamPlan.tracked, not_not.mp hmode]
      cases h
      refine .begins phase
        { phase := state.phase, committed := state.partitions, changes := plan.mode
          = .cdc } ?_ ?_ rfl
      · simp [Planned.unspawned, planned, htracked, Partitioned.begins]
      · simp [planned, htracked, Partitioned.begins, Phases.begin]
  · cases h
    refine .resumes ?_ (.inl rfl)
    simp only [Planned.unspawned, planned, Partitioned.resumes]
    split <;> rfl

theorem Loaded.prepares {prepared : Planned} (h : loaded.prepare follow stored = .ok prepared) :
    prepared.Prepares loaded follow stored := by
  obtain ⟨sourced, hsourced, hplanned⟩ := bind_eq_ok.mp h
  cases hplanned
  have htracked : ∀ {cycle : Option Cycle} {partitioned : Partitioned},
      (Engine.planned loaded.plan follow loaded.sequences cycle partitioned).stream.phases.isSome
        = loaded.plan.tracked follow := by
    intro cycle partitioned
    simp only [Engine.planned]
    split <;> simp_all
  refine ⟨rfl, rfl, htracked, fun hsome => ?_, fun {phases} hphases => ?_, ?_⟩
  · rw [Loaded.committed_of_tracked (htracked.symm.trans hsome)] at hsourced
    obtain ⟨partitioned, -, rfl⟩ := map_eq_ok hsourced
    rfl
  · simp only [Engine.planned] at hphases
    split at hphases
    · rw [← Option.some.inj hphases]
      exact ⟨rfl, rfl⟩
    · cases hphases
  · unfold Loaded.committed
    cases hread : read loaded.plan (stored.stream loaded.plan.name) loaded.drawn with
    | incremental state =>
      rw [hread] at hsourced
      obtain ⟨partitioned, hpartitioned, rfl⟩ := map_eq_ok hsourced
      exact planned_starts hpartitioned
    | cycle cycle state =>
      rw [hread] at hsourced
      obtain ⟨partitioned, hpartitioned, rfl⟩ := map_eq_ok hsourced
      exact planned_starts hpartitioned
    | completed =>
      rw [hread] at hsourced
      cases hsourced
      refine .resumes ?_ (.inr rfl)
      have hnone : loaded.plan.tracked follow = false := by
        refine Bool.eq_false_iff.mpr fun htracked => ?_
        rw [Loaded.committed_of_tracked htracked] at hread
        cases hread
      simp [Planned.unspawned, Engine.planned, hnone]

theorem Planned.Prepares.unread_unspawned {planned : Planned}
    (h : planned.Prepares loaded follow stored) {phases : Phases}
    (hphases : (planned.unspawned state).phases = some phases) :
    phases.reading = ∅ ∧ phases.settled = false := by
  obtain ⟨held, hheld, rfl⟩ := Option.map_eq_some_iff.mp hphases
  exact ⟨(h.unread hheld).1, (h.unread hheld).2⟩

theorem nodup_resumed (committed : OrdMap PartitionId PartitionState) {ids : List PartitionId}
    (h : ids.Nodup) : ((resumed committed ids).map Prod.fst).Nodup := by
  have hids : (resumed committed ids).map Prod.fst
      = ids.filter fun id => (Coordinator.resumes committed[id]?).isSome := by
    rw [resumed, List.map_filterMap, ← List.filterMap_eq_filter]
    refine List.filterMap_congr fun id _ => ?_
    cases hresumes : Coordinator.resumes committed[id]? <;> simp [hresumes, Option.guard]
  rw [hids]
  exact h.filter _

theorem Planned.Starts.nodup {planned : Planned} (h : planned.Starts state named) :
    (planned.partitions.map Prod.fst).Nodup := by
  cases h with
  | resumes _ hpartitions =>
    rcases hpartitions with hpartitions | hpartitions <;> rw [hpartitions]
    · exact nodup_resumed state.partitions named.distinct
    · exact List.nodup_nil
  | begins next phases _ _ hpartitions =>
    rw [hpartitions, List.map_map]
    exact named.distinct.map fun _ _ => id

theorem resumesAt_unbegun {stream : Nat} {launched : List Launch}
    (h : ∀ phase starts, Launch.phase stream phase starts ∉ launched) (id : PartitionId) :
    (opened.view loaded stream (launched.map .launched)).resumesAt id
      = Coordinator.resumes (loaded.committed opened.stored).partitions[id]? := by
  have hview : (opened.view loaded stream (launched.map .launched)).begun = false ∧
      (opened.view loaded stream (launched.map .launched)).recorded
        = (loaded.committed opened.stored).partitions := by
    induction launched using List.reverseRecOn with
    | nil => exact ⟨rfl, rfl⟩
    | append_singleton launched launch ih =>
      have hview := ih fun phase starts hmem => h phase starts (List.mem_append_left _ hmem)
      rw [List.map_append, List.map_singleton, Opened.view_concat]
      cases launch with
      | phase other phase starts =>
        have hother : other ≠ stream := by
          rintro rfl
          exact h phase starts (List.mem_append_right _ (List.mem_singleton_self _))
        rw [PhaseView.saw, if_neg hother]
        exact hview
      | read job =>
        simp only [PhaseView.saw]
        split <;> exact hview
  rw [PhaseView.resumesAt, hview.1, hview.2]
  rfl

/-! ## Reads spawned -/

/-- A stream with the reads of `starts` launched, from the place at `first` on. -/
def StreamRun.spawned (run : StreamRun) (starts : List (PartitionId × Option Cursor))
    (first : Nat) :
    StreamRun :=
  { run with
    remaining := run.remaining + starts.length
    phases := run.phases.map fun phases => phases.spawned (starts.map Prod.fst) first }

def spawnedReads (stream : Nat) (starts : List (PartitionId × Option Cursor)) (first : Nat) :
    List Launch :=
  (starts.zipIdx first).map fun place =>
    .read { index := place.2, stream, id := place.1.1, cursor := place.1.2 }

namespace Coordinator

/-- The coordinator of an attempt that has started some of its reads. -/
def spawning (opened : Opened) (streams : List StreamRun) (partitions : List PartitionRun)
    (launched : List Launch) : Coordinator :=
  { streams, partitions, epoch := opened.epoch, unended := partitions.length,
    done := DoneMarkers.ofState opened.stored, launched }

variable {before after : List StreamRun} {run : StreamRun} {reads : List PartitionRun}
  {launched : List Launch} {c : Coordinator}

theorem modify_length {α : Type} (before after : List α) (x : α) (f : α → α) :
    (before ++ x :: after).modify before.length f = before ++ f x :: after := by
  induction before with
  | nil => rfl
  | cons y before ih => simp [ih]

/-- A read launched while an attempt starts takes the next place. -/
theorem spawning_placing (hreads : ∀ read ∈ reads, read.ended = false) (id : PartitionId)
    (cursor : Option Cursor) :
    (spawning opened (before ++ run :: after) reads launched).placing before.length id cursor
      = spawning opened (before ++ run.spawned [(id, cursor)] reads.length :: after)
          (reads ++ [PartitionRun.starting before.length id cursor])
          (launched ++ spawnedReads before.length [(id, cursor)] reads.length) := by
  have hended : ∀ index, (spawning opened (before ++ run :: after) reads launched).endedAt index
      = false := by
    intro index
    cases hread : reads[index]? with
    | none => simp [endedAt, spawning, hread]
    | some read => simp [endedAt, spawning, hread, hreads read (List.mem_of_getElem? hread)]
  have hplace : (spawning opened (before ++ run :: after) reads launched).place before.length id
      = (reads.length, ∅) := by
    have hfilter : ∀ index : Option Nat,
        index.filter (spawning opened (before ++ run :: after) reads launched).endedAt = none := by
      intro index
      cases index <;> simp [Option.filter, hended]
    simp only [place, hfilter]
    simp [spawning]
  unfold placing
  rw [hplace]
  simp [spawning, modify_length, StreamRun.spawned, Phases.spawned, spawnedReads]

theorem spawned_cons (run : StreamRun) (start : PartitionId × Option Cursor)
    (starts : List (PartitionId × Option Cursor)) (first : Nat) :
    (run.spawned [start] first).spawned starts (first + 1)
      = run.spawned (start :: starts) first := by
  simp only [StreamRun.spawned, Phases.spawned, Option.map_map, List.map_cons, List.zipIdx_cons,
    List.foldl_cons, List.map_nil, List.zipIdx_nil, List.foldl_nil, List.length_cons,
    List.length_nil]
  congr 1
  omega

/-- A partition that may start, or one of a stream that tracks none, which is not read. -/
def Startable (c : Coordinator) (stream : Nat) (id : PartitionId) : Prop :=
  c.slots.Ready stream id ∨ c.slots.Fresh stream id

/-- A partition that may start is launched, and others of its stream still may start. -/
theorem Plans.startable {d : Coordinator} {trace : List Happened} {stream : Nat} {id : PartitionId}
    {cursor : Option Cursor} {loaded : Loaded} {rest : List (Nat × PartitionId)}
    (h : c.Plans d opened trace stored ((stream, id) :: rest)) (hstartable : d.Startable stream id)
    (hretired : d.retired = ∅) (hstream : stream < d.streams.length)
    (hloaded : opened.streams[stream]? = some loaded)
    (hcursor : (opened.view loaded stream (d.noted trace)).resumesAt id = some cursor) :
    c.Plans (d.placing stream id cursor) opened trace stored rest ∧
      ∀ other, other ≠ id → d.Startable stream other →
        (d.placing stream id cursor).Startable stream other := by
  rcases hstartable with hready | hfresh
  · refine ⟨h.placing hready hloaded hcursor, fun other hother hstartable => .inl ?_⟩
    obtain ⟨hopen, -⟩ := place_open h.follows.sound hready
    rw [slots_placing h.follows.sound hready]
    rcases hstartable with hready' | hfresh
    · exact Slots.Ready.take h.follows.sound hopen hready' hother
    · obtain ⟨places, hindex, -⟩ := hready
      rw [hfresh.1] at hindex
      cases hindex
  · have hplace := place_untracked hfresh hretired
    obtain ⟨hfollows, hadmits⟩ := h.follows.placing_untracked hfresh hstream hretired cursor
    refine ⟨h.launched hfollows hadmits hloaded hcursor, fun other hother hstartable => .inr ?_⟩
    rw [slots_placing_of (by simp [hplace, hretired]) (by simp [hplace])]
    rcases hstartable with ⟨places, hindex, -⟩ | hfresh'
    · rw [hfresh.1] at hindex
      cases hindex
    · exact hfresh.take hfresh' hother

/-- Launching the reads of a stream as an attempt starts keeps planning. -/
theorem Plans.spawnReads {loaded : Loaded} {starts : List (PartitionId × Option Cursor)}
    (h : c.Plans (spawning opened (before ++ run :: after) reads launched) opened [] opened.stored
      (starts.map fun start => (before.length, start.1)))
    (hreads : ∀ read ∈ reads, read.ended = false)
    (hloaded : opened.streams[before.length]? = some loaded)
    (hstartable : ∀ start ∈ starts,
      (spawning opened (before ++ run :: after) reads launched).Startable before.length start.1)
    (hcursor : ∀ start ∈ starts,
      (opened.view loaded before.length (launched.map .launched)).resumesAt start.1 = some start.2)
    (hnodup : (starts.map Prod.fst).Nodup) :
    c.Plans (spawning opened (before ++ run.spawned starts reads.length :: after)
      (reads ++ starts.map fun start => PartitionRun.starting before.length start.1 start.2)
      (launched ++ spawnedReads before.length starts reads.length)) opened [] opened.stored [] := by
  induction starts generalizing run reads launched with
  | nil =>
    have hsame : run.spawned [] reads.length = run := by
      have hphases : ∀ phases : Phases, phases.spawned [] reads.length = phases := fun _ => rfl
      simp [StreamRun.spawned, hphases]
    simpa [hsame, spawnedReads] using h
  | cons start starts ih =>
    obtain ⟨hfresh, hnodup⟩ := List.nodup_cons.mp hnodup
    have hother : ∀ other ∈ starts, other.1 ≠ start.1 := fun other hmem hsame =>
      hfresh (List.mem_map.mpr ⟨other, hmem, hsame⟩)
    set d := spawning opened (before ++ run :: after) reads launched with hd
    have hnoted : d.noted [] = launched.map .launched := List.nil_append _
    have hstart := hcursor start List.mem_cons_self
    rw [← hnoted] at hstart
    have hstream : before.length < d.streams.length := by simp [hd, spawning]
    obtain ⟨hplans, hstill⟩ := h.startable (hstartable start List.mem_cons_self) rfl hstream
      hloaded hstart
    rw [hd, spawning_placing hreads] at hplans hstill
    have hspawned := ih hplans ?_ (fun other hmem =>
      hstill other.1 (hother other hmem) (hstartable other (List.mem_cons_of_mem _ hmem))) ?_ hnodup
    · rw [List.length_append, List.length_singleton, spawned_cons] at hspawned
      simpa [spawnedReads, List.append_assoc] using hspawned
    · intro read hread
      rcases List.mem_append.mp hread with hread | hread
      · exact hreads read hread
      · rw [List.mem_singleton.mp hread]
        rfl
    · intro other hmem
      rw [← hcursor other (List.mem_cons_of_mem _ hmem), List.map_append]
      change (opened.view loaded before.length (launched.map .launched
        ++ [.launched (.read ⟨reads.length, before.length, start.1, start.2⟩)])).resumesAt other.1
          = _
      rw [Opened.view_concat]
      exact resumesAt_launched _ rfl (hother other hmem)

theorem Plans.weaken {d : Coordinator} {trace : List Happened}
    (h : c.Plans d opened trace stored []) (rest : List (Nat × PartitionId)) :
    c.Plans d opened trace stored rest :=
  { h with
    opens := fun stream phases begun loaded hphases hbegun hloaded id start hstart =>
      .inl ((h.opens stream phases begun loaded hphases hbegun hloaded id start
        hstart).resolve_right
        List.not_mem_nil) }

theorem placed_eq {planned : Planned} {loaded : Loaded}
    (h : planned.Prepares loaded opened.follow opened.stored) (first : Nat) :
    ({ planned.stream with remaining := 0 } : StreamRun).spawned planned.partitions first
      = planned.placed first := by
  simp [StreamRun.spawned, Planned.placed, ← h.remaining]

theorem phases_spawning (opened : Opened) (before after : List StreamRun) (run : StreamRun)
    (reads : List PartitionRun)
    (launched : List Launch) :
    (spawning opened (before ++ run :: after) reads launched).phases before.length
      = run.phases := by
  simp [phases, spawning]

theorem startable_spawning (opened : Opened) {before : List StreamRun} (after : List StreamRun)
    {run : StreamRun} {reads : List PartitionRun}
    (hreads : ∀ read ∈ reads, read.stream < before.length)
    (hunread : ∀ phases, run.phases = some phases → phases.reading = ∅) (launched : List Launch)
    (id : PartitionId) :
    (spawning opened (before ++ run :: after) reads launched).Startable before.length id := by
  have hphases := phases_spawning opened before after run reads launched
  cases hrun : run.phases with
  | none =>
    refine .inr ⟨by simp [slots, hphases, hrun], fun place holder hholder hgroup => ?_⟩
    obtain ⟨read, hread, hstream, -⟩ := held_slots hholder
    have hbound := hreads read (List.mem_of_getElem? hread)
    omega
  | some phases =>
    refine .inl
      ⟨fun id => phases.reading[id]?, by simp [slots, hphases, hrun], fun place hplace => ?_⟩
    simp [hunread phases hrun] at hplace

theorem Plans.spawnStream {loaded : Loaded} {planned : Planned} (h : c.Plans (spawning opened
        (before ++ planned.unspawned (loaded.committed opened.stored) :: after) reads launched)
      opened [] opened.stored []) (hprepares : planned.Prepares loaded opened.follow opened.stored)
    (hloaded : opened.streams[before.length]? = some loaded)
    (hreads : ∀ read ∈ reads, read.ended = false ∧ read.stream < before.length)
    (hlaunched : ∀ phase starts, Launch.phase before.length phase starts ∉ launched) :
    c.Plans (spawning opened (before ++ planned.placed reads.length :: after)
        (reads ++ planned.partitions.map fun start =>
          PartitionRun.starting before.length start.1 start.2)
        (launched ++ planned.launches before.length reads.length))
      opened [] opened.stored [] := by
  have hnodup := hprepares.starts.nodup
  have hended : ∀ read ∈ reads, read.ended = false := fun read hread => (hreads read hread).1
  set run := planned.unspawned (loaded.committed opened.stored)
  set d := spawning opened (before ++ run :: after) reads launched with hd
  rcases hprepares.starts with ⟨hphases, hpartitions⟩ | ⟨next, phases, hbefore,
    hphases, hpartitions⟩
  · have hrun : run = { planned.stream with remaining := 0 } :=
      congrArg (fun phases =>
        ({ planned.stream with remaining := 0, phases } : StreamRun)) hphases.symm
    have hlaunches : planned.launches before.length reads.length
        = spawnedReads before.length planned.partitions reads.length := by
      have hnone : (planned.stream.phases.bind fun phases => phases.begun.map fun begun =>
          Launch.phase before.length phases.phase begun.starts) = none := by
        rw [hphases]
        cases hstream : planned.stream.phases <;> simp [Planned.unspawned, hstream]
      rw [Planned.launches, hnone]
      rfl
    rw [← placed_eq hprepares, hlaunches, ← hrun]
    have hstartable : ∀ id, d.Startable before.length id := startable_spawning opened after
      (fun read hread => (hreads read hread).2)
      (fun _ hphases => (hprepares.unread_unspawned hphases).1) launched
    refine (h.weaken _).spawnReads hended hloaded (fun start _ => hstartable start.1)
      (fun start hstart => ?_) hnodup
    rw [resumesAt_unbegun hlaunched]
    rcases hpartitions with hpartitions | hpartitions <;> rw [hpartitions] at hstart
    · obtain ⟨id, -, hid⟩ := List.mem_filterMap.mp hstart
      obtain ⟨cursor, hcursor, rfl⟩ := Option.map_eq_some_iff.mp hid
      exact hcursor
    · cases hstart
  · obtain ⟨hempty, hsettled⟩ := hprepares.unread_unspawned hbefore
    have hbegins : d.beginning before.length next phases loaded.planned.starts
        = spawning opened (before ++ { planned.stream with remaining := 0 } :: after) reads
            (launched ++ [.phase before.length next loaded.planned.starts]) := by
      have hstream : ({ run with
            phases := run.phases.map (Phases.begin · next loaded.planned.starts) } : StreamRun)
          = { planned.stream with remaining := 0 } := by
        rw [hbefore, Option.map_some, ← hphases]
        rfl
      simp only [hd, Coordinator.beginning, setPhases, spawning, modify_length, hstream, hempty]
      simp
    have hlaunches : planned.launches before.length reads.length
        = [.phase before.length next loaded.planned.starts]
          ++ spawnedReads before.length planned.partitions reads.length := by
      simp [Planned.launches, hphases, spawnedReads, Phases.begin]
    have hat : d.phases before.length = some phases := by rw [phases_spawning, hbefore]
    have hended' : d.phaseEnded before.length = true := by simp [phaseEnded, hat, hempty, hsettled]
    have hbeginning := h.beginning hat hended' rfl next loaded.planned
    have hready := ready_beginning hat next loaded.planned.starts
    rw [hbegins] at hbeginning hready
    rw [← placed_eq hprepares, hlaunches, ← List.append_assoc]
    refine Plans.spawnReads ?_ hended hloaded (fun start _ => .inl (hready start.1))
      (fun start hstart => ?_) hnodup
    · simpa [hpartitions, List.map_map, Function.comp_def] using hbeginning
    · rw [hpartitions] at hstart
      obtain ⟨id, -, rfl⟩ := List.mem_map.mp hstart
      rw [List.map_append, List.map_singleton, Opened.view_concat]
      simp [PhaseView.saw, PhaseView.resumesAt]

/-! ## The attempt as it starts -/

/-- The streams of an attempt started in turn, those before them being started, keep planning. -/
theorem Plans.spawnStreams {loaded : List Loaded} {planned : List Planned} {started : List Loaded}
    (hprepares : List.Forall₂ (fun loaded planned =>
      planned.Prepares loaded opened.follow opened.stored) loaded planned)
    (hloaded : opened.streams = started ++ loaded) (hbefore : before.length = started.length)
    (h : c.Plans (spawning opened (before ++ List.zipWith (fun loaded planned =>
          planned.unspawned (loaded.committed opened.stored)) loaded planned) reads launched)
      opened [] opened.stored [])
    (hreads : ∀ read ∈ reads, read.ended = false ∧ read.stream < before.length)
    (hlaunched : ∀ stream phase starts, Launch.phase stream phase starts ∈ launched →
      stream < before.length) :
    let spawned := (planned.zipIdx before.length).foldl
      (fun spawned entry =>
        let first := spawned.2.1.length
        (spawned.1 ++ [entry.1.placed first], spawned.2.1 ++ entry.1.partitions.map fun start =>
           PartitionRun.starting entry.2 start.1 start.2,
         spawned.2.2 ++ entry.1.launches entry.2 first))
      (before, reads, launched)
    c.Plans (spawning opened spawned.1 spawned.2.1 spawned.2.2) opened [] opened.stored [] := by
  induction hprepares generalizing before reads launched started with
  | nil => simpa using h
  | @cons first prepared loaded planned hprepared hrest ih =>
    have hat : opened.streams[before.length]? = some first := by simp [hloaded, hbefore]
    have hspawned := h.spawnStream hprepared hat hreads fun phase starts hmem =>
      Nat.lt_irrefl _ (hlaunched _ _ _ hmem)
    rw [List.append_cons] at hspawned
    have hstarted : opened.streams = (started ++ [first]) ++ loaded := by simp [hloaded]
    have hlength :
        (before ++ [prepared.placed reads.length]).length = (started ++ [first]).length := by
      simp [hbefore]
    have hdone := ih hstarted hlength hspawned ?_ ?_
    · simpa using hdone
    · intro read hread
      rw [List.length_append, List.length_singleton]
      rcases List.mem_append.mp hread with hread | hread
      · exact ⟨(hreads read hread).1, Nat.lt_succ_of_lt (hreads read hread).2⟩
      · obtain ⟨start, -, rfl⟩ := List.mem_map.mp hread
        exact ⟨rfl, Nat.lt_succ_self _⟩
    · intro stream phase starts hmem
      rw [List.length_append, List.length_singleton]
      rcases List.mem_append.mp hmem with hmem | hmem
      · exact Nat.lt_succ_of_lt (hlaunched stream phase starts hmem)
      · rcases List.mem_append.mp hmem with hmem | hmem
        · obtain ⟨phases, -, hphases⟩ := Option.bind_eq_some_iff.mp (Option.mem_toList.mp hmem)
          obtain ⟨begun, -, hlaunch⟩ := Option.map_eq_some_iff.mp hphases
          rw [Launch.phase.injEq] at hlaunch
          rw [← hlaunch.1]
          exact Nat.lt_succ_self _
        · obtain ⟨place, -, hlaunch⟩ := List.mem_map.mp hmem
          cases hlaunch

/-- The streams of an attempt, none of them read yet, follow what state records of them. -/
theorem plans_unspawned {planned : List Planned} (hprepares : List.Forall₂ (fun loaded planned =>
      planned.Prepares loaded opened.follow opened.stored) opened.streams planned) :
    let c := spawning opened (List.zipWith (fun loaded planned =>
      planned.unspawned (loaded.committed opened.stored)) opened.streams planned) [] []
    c.Plans c opened [] opened.stored [] := by
  intro c
  obtain ⟨hlength, hzip⟩ := List.forall₂_iff_zip.mp hprepares
  have hstreams : ∀ {stream : Nat} {run : StreamRun}, c.streams[stream]? = some run →
      ∃ (loaded : Loaded) (prepared : Planned), opened.streams[stream]? = some loaded ∧
        prepared.Prepares loaded opened.follow opened.stored ∧
        prepared.unspawned (loaded.committed opened.stored) = run := by
    intro stream run hrun
    obtain ⟨loaded, prepared, hloaded, hprepared, hsame⟩ := List.getElem?_zipWith_eq_some.mp hrun
    refine ⟨loaded, prepared, hloaded, hzip (List.mem_of_getElem? (i := stream) ?_), hsame⟩
    simp [List.zip, List.getElem?_zipWith, hloaded, hprepared]
  have hheld : ∀ place, c.slots.held place = none := fun place => rfl
  have hfree : ∀ {place holder}, ¬ c.slots.held place = some holder := by
    intro place holder hholder
    rw [hheld] at hholder
    cases hholder
  have hunread : ∀ {stream : Nat} {places : PartitionId → Option Nat},
      c.slots.index stream = some places → ∀ id, places id = none := by
    intro stream places hindex id
    obtain ⟨phases, hphases, hplaces⟩ := index_slots hindex
    obtain ⟨run, hrun, hphases⟩ := phases_eq_some.mp hphases
    obtain ⟨loaded, prepared, -, hprepared, rfl⟩ := hstreams hrun
    rw [hplaces, (hprepared.unread_unspawned hphases).1]
    simp
  have hbegun :
      ∀ {stream : Nat} {run : StreamRun} {phases : Phases}, c.streams[stream]? = some run →
      run.phases = some phases → phases.begun = none := by
    intro stream run phases hrun hphases
    obtain ⟨loaded, prepared, -, -, rfl⟩ := hstreams hrun
    obtain ⟨held, -, rfl⟩ := Option.map_eq_some_iff.mp hphases
    rfl
  refine ⟨?_, ?_, ?_, ?_, ?_, rfl, rfl, rfl⟩
  · refine ⟨?_, fun {place read} => ?_, fun hread => absurd hread List.not_mem_nil,
      fun {place} => ?_, fun {place run} hrun => ?_, ?_, fun {stream run loaded} hrun hloaded => ?_,
      fun hholder => absurd hholder hfree⟩
    · refine ⟨fun {stream places id place} hindex hplace => ?_,
        fun hholder => absurd hholder hfree, fun hholder => absurd hholder hfree,
        fun hretired => absurd hretired (Finset.notMem_empty _),
        fun hretired => absurd hretired (Finset.notMem_empty _),
        fun hretired => absurd hretired (Finset.notMem_empty _),
        fun hpending => absurd hpending (Finset.notMem_empty _)⟩
      rw [hunread hindex] at hplace
      cases hplace
    · rw [hheld]
      constructor <;> intro hnone <;> cases hnone
    · change place ∈ (∅ : Finset Nat) ↔ ((∅ : OrdMap Nat Standing)[place]?).isSome = true
      simp
    · cases hrun
    · simp [c, spawning, ← hlength]
    · obtain ⟨other, prepared, hother, hprepared, rfl⟩ := hstreams hrun
      cases hloaded.symm.trans hother
      refine ⟨hprepared.name, by simpa [Planned.unspawned] using hprepared.tracked,
        by simpa [Planned.unspawned] using hprepared.uncycled, fun hphases => ?_⟩
      obtain ⟨held, hphasesHeld, rfl⟩ := Option.map_eq_some_iff.mp hphases
      refine ⟨rfl, fun hnone => (by cases hnone), fun _ => ⟨rfl, rfl, fun _ => rfl⟩,
        fun hplace => ?_⟩
      rw [(hprepared.unread hphasesHeld).1] at hplace
      simp at hplace
  · intro before job after hsplit
    simp [noted, c, spawning] at hsplit
  · intro stream loaded hloaded htracked
    have hstate : loaded.committed opened.stored = opened.stored.stream loaded.plan.name := by
      rw [Loaded.committed, Loaded.committed_of_tracked htracked]
      rfl
    change (PhaseView.initial (loaded.committed opened.stored)).Recorded opened.stored
      loaded.plan.name
    rw [hstate]
    exact ⟨rfl, fun id => by simp [PhaseView.held, PhaseView.initial, PipelineState.position],
      fun id hid => absurd hid (Finset.notMem_empty _)⟩
  · intro stream phases begun loaded hphases hsome
    obtain ⟨run, hrun, hphases⟩ := phases_eq_some.mp hphases
    rw [hbegun hrun hphases] at hsome
    cases hsome
  · intro stream run phases begun hrun hphases hsome
    rw [hbegun hrun hphases] at hsome
    cases hsome

end Coordinator

theorem Opened.plans_start {attempt : Attempt} (h : opened.start = .ok attempt) :
    ∃ c d : Coordinator, c.Plans d opened [] opened.stored [] ∧
      attempt = { coordinator := { d with launched := [] }, stored := opened.stored,
                  trace := d.noted [] } ∧
      d.done = DoneMarkers.ofState opened.stored ∧ d.owed = ∅ := by
  obtain ⟨planned, hplanned, hlimit⟩ := bind_eq_ok.mp h
  obtain ⟨_, -, hattempt⟩ := bind_eq_ok.mp hlimit
  have hprepares : List.Forall₂ (fun loaded planned =>
      planned.Prepares loaded opened.follow opened.stored) opened.streams planned :=
    (mapM_eq_ok_iff.mp hplanned).imp fun _ _ hprepare => Loaded.prepares hprepare
  have hplans := Coordinator.Plans.spawnStreams hprepares
    (show opened.streams = ([] : List Loaded) ++ opened.streams from rfl)
    (show ([] : List StreamRun).length = ([] : List Loaded).length from rfl)
    (Coordinator.plans_unspawned hprepares) (fun _ hread => absurd hread List.not_mem_nil)
    (fun _ _ _ hlaunch => absurd hlaunch List.not_mem_nil)
  exact ⟨_, _, hplans, (Except.ok.inj hattempt).symm, rfl, rfl⟩

end Rdlt.Engine
