/-
  Rdlt.Engine.Coordinator.Following

  A coordinator follows what happened: its table of places holds the reads under
  way, and each stream's phases are those the trace shows, committed where they
  are recorded.
-/

import Rdlt.Engine.Coordinator.Places
import Rdlt.Engine.Coordinator.Trace

namespace Rdlt.Engine

open Lib

variable {opened : Opened} {trace : List Happened} {c : Coordinator} {stream : Nat}
  {phases : Phases} {id : PartitionId} {view : PhaseView} {name : StreamName}

/-! ## What one more thing changes -/

theorem Watch.after_concat (trace : List Happened) (happened : Happened) :
    Watch.after (trace ++ [happened]) = (Watch.after trace).saw happened := by
  simp [Watch.after]

theorem lastStood_concat (trace : List Happened) (place : Nat) (happened : Happened) :
    lastStood (trace ++ [happened]) place = standing place (lastStood trace place) happened := by
  simp [lastStood]

theorem lastRead_concat (trace : List Happened) (place : Nat) (happened : Happened) :
    lastRead (trace ++ [happened]) place = lastLaunched place (lastRead trace place) happened := by
  simp [lastRead]

theorem Opened.view_concat (opened : Opened) (loaded : Loaded) (stream : Nat)
    (trace : List Happened) (happened : Happened) : opened.view loaded stream (trace ++ [happened])
      = (opened.view loaded stream trace).saw stream loaded.plan.name happened := by
  simp [Opened.view]

/-! ## Following -/

structure Phases.Tracks (phases : Phases) (view : PhaseView) : Prop where
  phase : phases.phase = view.phase
  begun : ∀ {begun}, phases.begun = some begun →
    view.begun = true ∧ begun.starts = view.starts ∧ phases.committed = ∅
  recorded : phases.begun = none →
    view.begun = false ∧ view.recordedPhase = view.phase ∧
      ∀ id : PartitionId, phases.committed[id]? = view.recorded[id]?
  reading : ∀ {id place}, phases.reading[id]? = some place → place ∈ view.reads ∧ id ∈ view.opened

theorem Phases.Tracks.launched (h : phases.Tracks view) (job : Job)
    (hstream : job.stream = stream) :
    ({ phases with reading := phases.reading.insert job.id job.index } : Phases).Tracks
      (view.saw stream name (.launched (.read job))) := by
  simp only [PhaseView.saw, if_pos hstream]
  refine ⟨h.phase, h.begun, h.recorded, fun {id place} hplace => ?_⟩
  rw [OrdMap.getElem?_insert] at hplace
  split at hplace
  · rename_i hid
    rw [← Option.some.inj hplace, ← hid]
    exact ⟨Finset.mem_insert_self .., Finset.mem_insert_self ..⟩
  · obtain ⟨hreads, hopened⟩ := h.reading hplace
    exact ⟨Finset.mem_insert_of_mem hreads, Finset.mem_insert_of_mem hopened⟩

theorem Phases.Tracks.elsewhere (h : phases.Tracks view) {job : Job} (hstream : job.stream ≠ stream)
    (hplace : ∀ id : PartitionId, phases.reading[id]? ≠ some job.index) :
    phases.Tracks (view.saw stream name (.launched (.read job))) := by
  simp only [PhaseView.saw, if_neg hstream]
  refine ⟨h.phase, h.begun, h.recorded, fun {id place} hid => ?_⟩
  obtain ⟨hreads, hopened⟩ := h.reading hid
  exact ⟨Finset.mem_erase.mpr ⟨fun hsame => hplace id (hsame ▸ hid), hreads⟩, hopened⟩

/-- A stream is the one loaded, and its phases are those of its view. -/
structure StreamRun.Follows (run : StreamRun) (loaded : Loaded) (follow : Bool) (view : PhaseView) :
    Prop where
  name : run.name = loaded.plan.name
  tracked : run.phases.isSome = loaded.plan.tracked follow
  uncycled : run.phases.isSome → run.cycle = none
  phases : ∀ {phases}, run.phases = some phases → phases.Tracks view

/-- A stream is as it was, as far as what is recorded of it goes. -/
def StreamRun.Keeps (run earlier : StreamRun) : Prop :=
  run.name = earlier.name ∧ run.cycle = earlier.cycle ∧ run.phases.isSome = earlier.phases.isSome ∧
    ∀ phases, run.phases = some phases →
      ∃ held, earlier.phases = some held ∧ ∀ view, held.Tracks view → phases.Tracks view

theorem StreamRun.Follows.keep {run earlier : StreamRun} {loaded : Loaded} {follow : Bool}
    (h : earlier.Follows loaded follow view) (hkeeps : run.Keeps earlier) :
    run.Follows loaded follow view where
  name := hkeeps.1.trans h.name
  tracked := hkeeps.2.2.1.trans h.tracked
  uncycled := fun hsome => hkeeps.2.1.trans (h.uncycled (hkeeps.2.2.1 ▸ hsome))
  phases := fun hsome => by
    obtain ⟨held, hheld, htracks⟩ := hkeeps.2.2.2 _ hsome
    exact htracks view (h.phases hheld)

theorem StreamRun.keeps_of_eq {run earlier : StreamRun} (hname : run.name = earlier.name)
    (hcycle : run.cycle = earlier.cycle) (hphases : run.phases = earlier.phases) :
    run.Keeps earlier :=
  ⟨hname, hcycle, hphases ▸ rfl, fun phases h => ⟨phases, hphases ▸ h, fun _ => id⟩⟩

/-- Changing one stream by what keeps every stream keeps all of them. -/
theorem StreamRun.exists_of_modify {streams : List StreamRun} {change : StreamRun → StreamRun}
    {other : Nat} {run : StreamRun} (hrun : (streams.modify stream change)[other]? = some run)
    (hkeeps : ∀ run, (change run).Keeps run) :
    ∃ earlier, streams[other]? = some earlier ∧ run.Keeps earlier := by
  rw [List.getElem?_modify] at hrun
  obtain ⟨earlier, hearlier, rfl⟩ := Option.map_eq_some_iff.mp hrun
  refine ⟨earlier, hearlier, ?_⟩
  split
  · exact hkeeps earlier
  · exact keeps_of_eq rfl rfl rfl

/-- Where a partition stands is where its read last stood: `stood` its last cursor, `stands` its
    committed position and `waiting` where its seals waiting leave it. -/
def Stands (stood : Option Cursor) (stands : Option PartitionState) : Option Standing → Prop
  | none => ∀ cursor, stands = some (.cursor cursor) → stood = some cursor
  | some waiting =>
    (∀ cursor, waiting.told = some cursor → stood = some cursor) ∧
      (waiting.told = none → ∀ cursor, stands = some (.cursor cursor) → stood = some cursor)

theorem Stands.sealed {stood : Option Cursor} {stands : Option PartitionState}
    {waiting : Option Standing} (h : Stands stood stands waiting) (place : Nat)
    (state : PartitionState) :
    Stands (standing place stood (.sealed place state)) stands
      (some (Engine.stood state waiting)) := by
  cases state with
  | cursor cursor => simp [Stands, standing, Engine.stood, Standing.told]
  | done =>
    cases waiting with
    | none =>
        exact ⟨fun _ hnone => absurd hnone (by simp [Engine.stood, Standing.told]), fun _ => h⟩
    | some earlier => exact h

/-- The coordinator follows what happened. -/
structure Coordinator.Follows (c : Coordinator) (opened : Opened) (trace : List Happened) :
    Prop where
  sound : c.slots.Sound
  live : ∀ {place read}, (Watch.after trace).live place = some read ↔
    c.slots.held place = some ⟨read.1, read.2, false⟩
  waiting : ∀ {read}, read ∈ (Watch.after trace).waiting →
    read.place ∈ c.sealing ∧ ∃ ended, c.slots.held read.place = some ⟨read.stream, read.id, ended⟩
  standing : ∀ {place}, place ∈ c.sealing ↔ (c.waiting.standing[place]?).isSome
  stood : ∀ {place run}, c.partitions[place]? = some run →
    Stands (lastStood trace place) run.stands c.waiting.standing[place]?
  loaded : c.streams.length = opened.streams.length
  streams : ∀ {stream : Nat} {run : StreamRun} {loaded : Loaded}, c.streams[stream]? = some run →
    opened.streams[stream]? = some loaded →
    run.Follows loaded opened.follow (opened.view loaded stream trace)
  housed : ∀ {place holder}, c.slots.held place = some holder →
    holder.group < c.streams.length ∧ lastRead trace place = some (holder.group, holder.key)

/-- The partitions of a phase just begun that are to start have a read, but for those of `rest`. -/
def Coordinator.Opens (c : Coordinator) (opened : Opened) (trace : List Happened)
    (rest : List (Nat × PartitionId)) : Prop :=
  ∀ stream phases begun loaded, c.phases stream = some phases → phases.begun = some begun →
    opened.streams[stream]? = some loaded → ∀ id start, begun.starts[id]? = some start →
      id ∈ (opened.view loaded stream trace).opened ∨ (stream, id) ∈ rest

namespace Coordinator

theorem phases_eq_some : c.phases stream = some phases ↔
      ∃ run, c.streams[stream]? = some run ∧ run.phases = some phases :=
  Option.bind_eq_some_iff

theorem Follows.tracks (h : c.Follows opened trace) (hphases : c.phases stream = some phases) :
    ∃ loaded, opened.streams[stream]? = some loaded ∧
      phases.Tracks (opened.view loaded stream trace) := by
  obtain ⟨run, hrun, hsome⟩ := phases_eq_some.mp hphases
  have hbound : stream < opened.streams.length := by
    rw [← h.loaded]
    exact (List.getElem?_eq_some_iff.mp hrun).1
  exact ⟨_, List.getElem?_eq_getElem hbound,
    (h.streams hrun (List.getElem?_eq_getElem hbound)).phases hsome⟩

/-! ## What partitions tell -/

theorem held_of_reading {place : Nat}
    (h : (c.partitions[place]?).any (fun run => !run.ended) = true) :
    ∃ read : Nat × PartitionId, c.slots.held place = some ⟨read.1, read.2, false⟩ := by
  cases hrun : c.partitions[place]? with
  | none =>
    rw [hrun] at h
    cases h
  | some run =>
    rw [hrun] at h
    refine ⟨(run.stream, run.id), ?_⟩
    rw [held_slots_of hrun, show run.ended = false by simpa using h]

theorem Follows.sealed (h : c.Follows opened trace) {sent : Seal}
    (hreading : (c.partitions[sent.partition]?).any (fun run => !run.ended) = true) :
    (c.sealed sent).Follows opened (trace ++ [.sealed sent.partition sent.state]) := by
  obtain ⟨read, hheld⟩ := held_of_reading hreading
  have hlive := h.live.mpr hheld
  have hwatch : Watch.after (trace ++ [.sealed sent.partition sent.state])
      = { Watch.after trace with waiting := (Watch.after trace).waiting
            ++ [{ place := sent.partition, stream := read.1, id := read.2 }] } := by
    rw [Watch.after_concat, Watch.saw]
    simp only [hlive]
  refine ⟨h.sound.mark hheld rfl, ?_, ?_, ?_, fun {place run} hrun => ?_, h.loaded,
    fun hrun hloaded => ?_, fun hholder => ?_⟩
  · rw [hwatch]
    exact h.live
  · intro other hother
    rw [hwatch] at hother
    rcases List.mem_append.mp hother with hother | hother
    · obtain ⟨hsealing, hother⟩ := h.waiting hother
      exact ⟨Finset.mem_insert_of_mem hsealing, hother⟩
    · rw [List.mem_singleton.mp hother]
      exact ⟨Finset.mem_insert_self .., false, hheld⟩
  · intro place
    simp only [Coordinator.sealed, WaitingSeals.push, OrdMap.getElem?_insert, Finset.mem_insert]
    by_cases hplace : sent.partition = place
    · simp [hplace]
    · simp [hplace, Ne.symm hplace, h.standing]
  · rw [lastStood_concat]
    simp only [Coordinator.sealed, WaitingSeals.push, OrdMap.getElem?_insert]
    by_cases hplace : sent.partition = place
    · subst hplace
      rw [if_pos rfl]
      exact (h.stood hrun).sealed _ _
    · rw [if_neg hplace]
      cases hstate : sent.state with
      | cursor cursor => simpa [Engine.standing, hplace] using h.stood hrun
      | done => exact h.stood hrun
  · rw [Opened.view_concat]
    exact h.streams hrun hloaded
  · rw [lastRead_concat]
    exact h.housed hholder

theorem Follows.ended (h : c.Follows opened trace) {index : Nat} {stopped : Bool}
    (hreading : (c.partitions[index]?).any (fun run => !run.ended) = true) :
    (c.ended index stopped).Follows opened (trace ++ [.ended index]) := by
  obtain ⟨read, hheld⟩ := held_of_reading hreading
  obtain ⟨run, hrun, -⟩ := held_slots hheld
  have hsame : c.ended index stopped = { c with
        partitions := c.partitions.set index { run with ended := true }
        unended := c.unended - 1
        streams := c.streams.modify run.stream fun stream =>
          { stream with
            remaining := stream.remaining - 1
            stopped := stream.stopped || stopped } } := by
    simp [Coordinator.ended, hrun]
  refine ⟨?_, ?_, ?_, ?_, fun {place other} hother => ?_, ?_,
    fun {stream other loaded} hother hloaded => ?_, fun {place holder} hholder => ?_⟩
  · rw [slots_ended]
    exact h.sound.finish index
  · intro place other
    rw [slots_ended, Watch.after_concat]
    simp only [Watch.saw, Slots.finish, Function.update_apply]
    split
    · simp [hheld]
    · exact h.live
  · intro other hother
    rw [Watch.after_concat] at hother
    obtain ⟨hsealing, ended, hplace⟩ := h.waiting hother
    obtain ⟨ended, hplace, -⟩ := Slots.exists_held_finish index hplace
    rw [slots_ended]
    exact ⟨by rw [hsame]; exact hsealing, ended, hplace⟩
  · rw [hsame]
    exact h.standing
  · rw [lastStood_concat]
    rw [hsame] at hother ⊢
    simp only [List.getElem?_set] at hother
    by_cases hplace : index = place
    · subst hplace
      simp only [if_true] at hother
      split at hother
      · cases hother
        have hstood := h.stood hrun
        exact hstood
      · cases hother
    · rw [if_neg hplace] at hother
      exact h.stood hother
  · rw [hsame]
    simpa using h.loaded
  · rw [Opened.view_concat]
    rw [hsame] at hother
    obtain ⟨earlier, hearlier, hkeeps⟩ :=
      StreamRun.exists_of_modify hother fun _ => StreamRun.keeps_of_eq rfl rfl rfl
    exact (h.streams hearlier hloaded).keep hkeeps
  · rw [slots_ended] at hholder
    obtain ⟨earlier, hearlier, hgroup, hkey, -⟩ := Slots.exists_of_held_finish hholder
    rw [hgroup, hkey, hsame, lastRead_concat]
    simpa [lastLaunched] using h.housed hearlier

/-! ## Reads launched -/

def job (c : Coordinator) (stream : Nat) (id : PartitionId) (cursor : Option Cursor) : Job where
  index := (c.place stream id).1
  stream
  id
  cursor

/-- A partition that may start has neither a read nor a seal under way, and its place is free. -/
theorem Follows.admits (h : c.Follows opened trace) (hready : c.slots.Ready stream id)
    (cursor : Option Cursor) :
    (Watch.after trace).Admits (c.job stream id cursor) := by
  obtain ⟨hopen, -, -⟩ := place_open h.sound hready
  obtain ⟨hfree, hsettled⟩ := h.sound.free hready hopen
  obtain ⟨places, hindex, hheld⟩ := hready
  refine ⟨?_, fun place hlive => ?_, fun read hread => ⟨fun hplace => ?_, fun hsame => ?_⟩⟩
  · refine Option.eq_none_iff_forall_ne_some.mpr fun read hlive => ?_
    have hended := hfree _ (h.live.mp hlive)
    cases hended
  · have hplace := h.live.mp hlive
    obtain ⟨⟨holder, hholder, hended⟩, -⟩ := hheld place (h.sound.found hplace (.inl rfl) hindex)
    rw [hplace] at hholder
    rw [← Option.some.inj hholder] at hended
    cases hended
  · have hsealing := (h.waiting hread).1
    rw [hplace] at hsealing
    exact hsettled hsealing
  · obtain ⟨hsealing, ended, hplace⟩ := h.waiting hread
    obtain ⟨rfl, rfl⟩ := hsame
    exact (hheld _ (h.sound.found hplace (.inr hsealing) hindex)).2 hsealing

/-- A read launched at a place nothing is sealed at, which no phase of another stream reads, leaves
    the coordinator following. -/
theorem Follows.launched (h : c.Follows opened trace) (cursor : Option Cursor)
    (hstream : stream < c.streams.length)
    (hslots : (c.placing stream id cursor).slots = c.slots.take stream id (c.place stream id).1)
    (hsound : (c.slots.take stream id (c.place stream id).1).Sound)
    (hbound : (c.place stream id).1 ≤ c.partitions.length)
    (hsettled : (c.place stream id).1 ∉ c.sealing)
    (hothers : ∀ {other : Nat} {phases : Phases} {id' : PartitionId}, c.phases other = some phases →
      phases.reading[id']? = some (c.place stream id).1 → other = stream) :
    (c.placing stream id cursor).Follows opened
      (trace ++ [.launched (.read (c.job stream id cursor))]) := by
  refine ⟨hslots ▸ hsound, ?_, ?_, h.standing, fun {place run} hrun => ?_, ?_,
    fun {other run loaded} hrun hloaded => ?_, fun {place holder} hholder => ?_⟩
  · intro place read
    rw [hslots, Watch.after_concat]
    simp only [Watch.saw, Slots.take, Function.update_apply, Coordinator.job]
    split
    · simp [Prod.ext_iff]
    · exact h.live
  · intro read hread
    rw [Watch.after_concat] at hread
    obtain ⟨hsealing, ended, hplace⟩ := h.waiting hread
    have hne : read.place ≠ (c.place stream id).1 := by
      intro hsame
      rw [hsame] at hsealing
      exact hsettled hsealing
    refine ⟨hsealing, ended, ?_⟩
    rw [hslots, Slots.held_take_of_ne hne]
    exact hplace
  · rw [getElem?_placing hbound] at hrun
    rw [lastStood_concat]
    by_cases hplace : place = (c.place stream id).1
    · subst hplace
      have hnone : c.waiting.standing[(c.place stream id).1]? = none := by
        rw [← Option.not_isSome_iff_eq_none, ← h.standing]
        exact hsettled
      rw [if_pos rfl] at hrun
      rw [← Option.some.inj hrun,
        show (c.placing stream id cursor).waiting.standing[(c.place stream id).1]?
          = none from hnone]
      intro started hstarted
      obtain ⟨_, rfl, hcursor⟩ := Option.map_eq_some_iff.mp hstarted
      rw [PartitionState.cursor.inj hcursor]
      exact if_pos rfl
    · rw [if_neg hplace] at hrun
      simpa [Engine.standing, Coordinator.job, Ne.symm hplace,
        Coordinator.placing] using h.stood hrun
  · simpa [Coordinator.placing] using h.loaded
  · rw [Opened.view_concat]
    simp only [Coordinator.placing, List.getElem?_modify] at hrun
    obtain ⟨earlier, hearlier, rfl⟩ := Option.map_eq_some_iff.mp hrun
    have hfollows := h.streams hearlier hloaded
    by_cases hother : stream = other
    · subst hother
      simp only [if_true]
      refine ⟨hfollows.name, by simpa using hfollows.tracked, by simpa using hfollows.uncycled,
        fun hplaced => ?_⟩
      obtain ⟨phases, hphases, rfl⟩ := Option.map_eq_some_iff.mp hplaced
      exact (hfollows.phases hphases).launched (c.job stream id cursor) rfl
    · simp only [if_neg hother]
      refine ⟨hfollows.name, hfollows.tracked, hfollows.uncycled, fun {phases} hphases => ?_⟩
      refine (hfollows.phases hphases).elsewhere hother fun id' hid => hother ?_
      exact (hothers (phases_eq_some.mpr ⟨earlier, hearlier, hphases⟩) hid).symm
  · have hlength : (c.placing stream id cursor).streams.length = c.streams.length := by
      simp [Coordinator.placing]
    rw [hslots] at hholder
    rw [hlength, lastRead_concat]
    by_cases hplace : place = (c.place stream id).1
    · rw [hplace, Slots.held_take_self] at hholder
      rw [← Option.some.inj hholder]
      exact ⟨hstream, if_pos hplace.symm⟩
    · rw [Slots.held_take_of_ne hplace] at hholder
      obtain ⟨hhoused, hread⟩ := h.housed hholder
      exact ⟨hhoused, (if_neg (Ne.symm hplace)).trans hread⟩

theorem Follows.placing (h : c.Follows opened trace) (hready : c.slots.Ready stream id)
    (cursor : Option Cursor) :
    (c.placing stream id cursor).Follows opened
      (trace ++ [.launched (.read (c.job stream id cursor))]) := by
  obtain ⟨hopen, -, hbound⟩ := place_open h.sound hready
  obtain ⟨-, hsettled⟩ := h.sound.free hready hopen
  have ⟨places, hindex, _⟩ := hready
  obtain ⟨phases, hphases, -⟩ := index_slots hindex
  obtain ⟨run, hrun, -⟩ := phases_eq_some.mp hphases
  refine h.launched cursor (List.getElem?_eq_some_iff.mp hrun).1
    (slots_placing h.sound hready cursor)
    (h.sound.take hready hopen) hbound hsettled fun {other held id'} hheld hid => ?_
  exact (h.sound.open_named hopen (index_slots_of hheld) hid).1

theorem place_untracked (hfresh : c.slots.Fresh stream id) (hretired : c.retired = ∅) :
    c.place stream id = (c.partitions.length, ∅) := by
  have hphases : c.phases stream = none := Option.map_eq_none_iff.mp hfresh.1
  simp [place, hphases, hretired]

/-- A partition of a stream that tracks none is launched, and the coordinator follows. -/
theorem Follows.placing_untracked (h : c.Follows opened trace) (hfresh : c.slots.Fresh stream id)
    (hstream : stream < c.streams.length) (hretired : c.retired = ∅) (cursor : Option Cursor) :
    (c.placing stream id cursor).Follows opened
        (trace ++ [.launched (.read (c.job stream id cursor))]) ∧
      (Watch.after trace).Admits (c.job stream id cursor) := by
  have hplace := place_untracked hfresh hretired
  have hfree : c.slots.held c.partitions.length = none := by simp [slots]
  have hslots : (c.placing stream id cursor).slots = c.slots.take stream id (c.place stream id).1 :=
    slots_placing_of (by simp [hplace, hretired]) (by simp [hplace]) cursor
  have hne : ∀ {place holder}, c.slots.held place = some holder → place ≠ c.partitions.length := by
    rintro place holder hholder rfl
    rw [hfree] at hholder
    cases hholder
  constructor
  · refine h.launched cursor hstream hslots ?_
      (by simp [hplace]) ?_ fun {other held id'} hheld hid => ?_
    · rw [hplace]
      exact h.sound.takeFresh hfresh hfree
    · intro hsealing
      rw [hplace] at hsealing
      obtain ⟨holder, hholder⟩ := h.sound.pendingHeld hsealing
      exact hne hholder rfl
    · rw [hplace] at hid
      obtain ⟨ended, hholder⟩ := h.sound.indexed (index_slots_of hheld) hid
      exact absurd rfl (hne hholder)
  · refine ⟨?_, fun place hlive => ?_, fun read hread => ⟨fun hsame => ?_, fun hsame => ?_⟩⟩
    · refine Option.eq_none_iff_forall_ne_some.mpr fun read hlive => ?_
      exact hne (h.live.mp hlive) (by rw [Coordinator.job, hplace])
    · exact hfresh.2 place _ (h.live.mp hlive) rfl rfl
    · obtain ⟨-, ended, hholder⟩ := h.waiting hread
      refine hne hholder ?_
      rw [hsame, Coordinator.job, hplace]
    · obtain ⟨-, ended, hholder⟩ := h.waiting hread
      exact hfresh.2 _ _ hholder hsame.1 hsame.2

/-! ## Phases begun, settled and dropped from -/

/-- Changing what streams are keeps following them, where it keeps the reads and what is recorded of
    their phases. -/
theorem Follows.keep {d : Coordinator} (h : c.Follows opened trace) (hsound : d.slots.Sound)
    (hheld : d.slots.held = c.slots.held) (hsealing : d.sealing = c.sealing)
    (hwaiting : d.waiting.standing = c.waiting.standing)
    (hstands : ∀ {place : Nat} {run : PartitionRun}, d.partitions[place]? = some run →
      ∃ earlier, c.partitions[place]? = some earlier ∧ run.stands = earlier.stands)
    (hlength : d.streams.length = c.streams.length)
    (hstreams : ∀ {stream : Nat} {run : StreamRun}, d.streams[stream]? = some run →
      ∃ earlier, c.streams[stream]? = some earlier ∧ run.Keeps earlier) :
    d.Follows opened trace where
  sound := hsound
  live := by
    rw [hheld]
    exact h.live
  waiting := fun hread => by
    rw [hheld, hsealing]
    exact h.waiting hread
  standing := by
    rw [hsealing, hwaiting]
    exact h.standing
  stood := fun hrun => by
    obtain ⟨earlier, hearlier, hsame⟩ := hstands hrun
    rw [hsame, hwaiting]
    exact h.stood hearlier
  loaded := hlength.trans h.loaded
  streams := fun hrun hloaded => by
    obtain ⟨earlier, hearlier, hkeeps⟩ := hstreams hrun
    exact (h.streams hearlier hloaded).keep hkeeps
  housed := fun hholder => by
    rw [hheld] at hholder
    rw [hlength]
    exact h.housed hholder

theorem exists_of_setPhases {other : Nat} {change : Phases → Phases} {run : StreamRun}
    (hrun : (c.setPhases stream change).streams[other]? = some run)
    (htracks : ∀ {phases : Phases} {view : PhaseView}, phases.Tracks view →
      (change phases).Tracks view) :
    ∃ earlier, c.streams[other]? = some earlier ∧ run.Keeps earlier := by
  refine StreamRun.exists_of_modify hrun fun _ =>
    ⟨rfl, rfl, Option.isSome_map, fun phases hphases => ?_⟩
  obtain ⟨held, hheld, rfl⟩ := Option.map_eq_some_iff.mp hphases
  exact ⟨held, hheld, fun _ => htracks⟩

theorem Follows.settled (h : c.Follows opened trace) (stream : Nat) (settled : Bool) :
    (c.setPhases stream fun phases => { phases with settled }).Follows opened trace := by
  have hslots : (c.setPhases stream fun phases => { phases with settled }).slots = c.slots := by
    refine slots_congr rfl (fun other => ?_) rfl rfl
    rw [phases_setPhases]
    split
    · rename_i hsame
      rw [hsame, Option.map_map]
      rfl
    · rfl
  refine h.keep (hslots ▸ h.sound) (by rw [hslots]) rfl rfl (fun hrun => ⟨_, hrun, rfl⟩)
    (by simp [setPhases]) fun hrun => ?_
  exact exists_of_setPhases hrun fun htracks =>
    ⟨htracks.phase, htracks.begun, htracks.recorded, htracks.reading⟩

theorem Follows.named (h : c.Follows opened trace) (stream : Nat) (named : Finset PartitionId) :
    ({ c with streams := c.streams.modify stream fun run => { run with named } } :
      Coordinator).Follows opened trace := by
  have hslots : ({ c with streams := c.streams.modify stream fun run => { run with named } } :
      Coordinator).slots = c.slots := by
    refine slots_congr rfl (fun other => ?_) rfl rfl
    exact congrArg _ (phases_modify stream other fun _ => rfl)
  refine h.keep (hslots ▸ h.sound) (by rw [hslots]) rfl rfl (fun hrun => ⟨_, hrun, rfl⟩)
    (by simp) fun hrun => ?_
  exact StreamRun.exists_of_modify hrun fun _ => StreamRun.keeps_of_eq rfl rfl rfl

theorem Follows.dropped (h : c.Follows opened trace) (hphases : c.phases stream = some phases)
    (planned : PartitionPlan) :
    (c.dropped stream phases planned).Follows opened trace := by
  refine h.keep (sound_dropped h.sound hphases planned) (by rw [slots_dropped]; rfl) rfl rfl
    (fun {place run} hrun => ?_) (by simp [Coordinator.dropped, setPhases]) fun hrun => ?_
  · simp only [Coordinator.dropped, List.getElem?_mapIdx] at hrun
    obtain ⟨earlier, hearlier, rfl⟩ := Option.map_eq_some_iff.mp hrun
    exact ⟨earlier, hearlier, by split <;> rfl⟩
  · refine exists_of_setPhases hrun fun htracks =>
      ⟨htracks.phase, htracks.begun, htracks.recorded, fun {id place} hplace => ?_⟩
    rw [OrdMap.getElem?_foldl_erase] at hplace
    split at hplace
    · cases hplace
    · exact htracks.reading hplace

/-- A phase begins, nothing of the last being under way. -/
theorem Follows.beginning (h : c.Follows opened trace) (hphases : c.phases stream = some phases)
    (hended : c.phaseEnded stream = true) (hsealing : c.sealing = ∅) (next : Nat)
    (starts : OrdMap PartitionId Cursor) :
    (c.beginning stream next phases starts).Follows opened
      (trace ++ [.launched (.phase stream next starts)]) := by
  refine ⟨sound_beginning h.sound hphases hended hsealing next starts, ?_, ?_, h.standing,
    fun hrun => ?_, ?_, fun {other run loaded} hrun hloaded => ?_, fun hholder => ?_⟩
  · rw [Watch.after_concat, slots_beginning]
    exact h.live
  · intro read hread
    rw [Watch.after_concat] at hread
    rw [slots_beginning]
    exact h.waiting hread
  · rw [lastStood_concat]
    exact h.stood hrun
  · simpa [Coordinator.beginning, setPhases] using h.loaded
  · rw [Opened.view_concat]
    simp only [Coordinator.beginning, setPhases, List.getElem?_modify] at hrun
    obtain ⟨earlier, hearlier, rfl⟩ := Option.map_eq_some_iff.mp hrun
    have hfollows := h.streams hearlier hloaded
    by_cases hother : stream = other
    · subst hother
      simp only [if_true, PhaseView.saw]
      refine ⟨hfollows.name, by simpa using hfollows.tracked, by simpa using hfollows.uncycled,
        fun hbegun => ?_⟩
      obtain ⟨held, -, rfl⟩ := Option.map_eq_some_iff.mp hbegun
      refine ⟨rfl, fun hstarts => ?_, fun hnone => absurd hnone (by simp [Phases.begin]),
        fun hplace => ?_⟩
      · rw [← Option.some.inj hstarts]
        exact ⟨rfl, rfl, rfl⟩
      · simp [Phases.begin] at hplace
    · simp only [if_neg hother, PhaseView.saw]
      exact hfollows
  · rw [slots_beginning] at hholder
    rw [lastRead_concat]
    simpa [Coordinator.beginning, setPhases, lastLaunched] using h.housed hholder

end Coordinator

end Rdlt.Engine
