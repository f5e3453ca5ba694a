/-
  Rdlt.Engine.Coordinator.Runs

  Every attempt keeps to what happened in it: each read it launched may have
  been launched, state records what its view says, and, while the attempt has
  not failed, its coordinator follows.
-/

import Rdlt.Engine.Coordinator.Start

namespace Rdlt.Engine

variable {opened : Opened} {trace : List Happened} {stored : PipelineState} {c : Coordinator}
  {attempt : Attempt} {happened : Happened} {attempts : Nat} {events : List Event}

/-! ## What leaves phases as they are -/

/-- What happens without a bearing on any stream's phases. -/
def Happened.Quiet : Happened → Prop
  | .sealed _ _ => True
  | .ended _ => True
  | .told _ => True
  | _ => False

theorem Opened.view_quiet (h : happened.Quiet) (loaded : Loaded) (stream : Nat) :
    opened.view loaded stream (trace ++ [happened]) = opened.view loaded stream trace := by
  rw [Opened.view_concat]
  cases happened with
  | launched launch => exact absurd h id
  | sealed place state => rfl
  | ended place => rfl
  | landed commit => exact absurd h id
  | told made => rfl

theorem Opened.Recorded.quiet (h : opened.Recorded trace stored) (hquiet : happened.Quiet) :
    opened.Recorded (trace ++ [happened]) stored := by
  intro stream loaded hloaded htracked
  rw [Opened.view_quiet hquiet]
  exact h stream loaded hloaded htracked

theorem Opened.Launches.quiet (h : opened.Launches trace) (hquiet : happened.Quiet) :
    opened.Launches (trace ++ [happened]) :=
  h.concat fun job hjob => by
    subst hjob
    exact absurd hquiet id

namespace Coordinator

theorem Opens.quiet (h : c.Opens opened trace []) (hquiet : happened.Quiet) :
    c.Opens opened (trace ++ [happened]) [] := by
  intro stream phases begun loaded hphases hbegun hloaded id start hstart
  rw [Opened.view_quiet hquiet]
  exact h stream phases begun loaded hphases hbegun hloaded id start hstart

theorem Follows.told (h : c.Follows opened trace) (made : Report) :
    c.Follows opened (trace ++ [.told made]) := by
  refine ⟨h.sound, ?_, fun {read} hread => ?_, h.standing, fun hrun => ?_, h.loaded,
    fun hrun hloaded => ?_, fun hholder => ?_⟩
  · rw [Watch.after_concat]
    exact h.live
  · rw [Watch.after_concat] at hread
    exact h.waiting hread
  · rw [lastStood_concat]
    exact h.stood hrun
  · rw [Opened.view_concat]
    exact h.streams hrun hloaded
  · rw [lastRead_concat]
    exact h.housed hholder

theorem Follows.congr {d : Coordinator} (h : c.Follows opened trace)
    (hstreams : d.streams = c.streams) (hpartitions : d.partitions = c.partitions)
    (hwaiting : d.waiting = c.waiting) (hsealing : d.sealing = c.sealing)
    (hretired : d.retired = c.retired) : d.Follows opened trace := by
  have hslots : d.slots = c.slots :=
    slots_congr (by rw [hpartitions]) (fun stream => by rw [phases, phases, hstreams])
      hsealing hretired
  refine h.keep (hslots ▸ h.sound) (by rw [hslots]) hsealing (by rw [hwaiting])
    (fun {place run} hrun => ⟨run, hpartitions ▸ hrun, rfl⟩) (by rw [hstreams])
    fun {stream run} hrun => ⟨run, hstreams ▸ hrun, rfl, rfl, rfl, fun phases hphases => ?_⟩
  exact ⟨phases, hphases, fun _ => id⟩

theorem opens_of_recorded (opened : Opened) (trace : List Happened) (stored : PipelineState)
    (h : ∀ {stream phases}, c.phases stream = some phases → phases.begun = none) :
    c.Opens opened trace [] ∧ c.Stales stored := by
  constructor
  · intro stream phases begun loaded hphases hbegun
    cases (h hphases).symm.trans hbegun
  · intro stream run phases begun hrun hphases hbegun
    cases (h (phases_eq_some.mpr ⟨run, hrun, hphases⟩)).symm.trans hbegun

end Coordinator

/-! ## Attempts -/

namespace Attempt

/-- An attempt that has not failed: its coordinator follows what happened, and knows what state
    holds stale and done. -/
structure Sound (attempt : Attempt) (opened : Opened) : Prop where
  follows : attempt.coordinator.Follows opened attempt.trace
  opens : attempt.coordinator.Opens opened attempt.trace []
  stales : attempt.coordinator.Stales attempt.stored
  done : attempt.coordinator.done = DoneMarkers.ofState attempt.stored
  launched : attempt.coordinator.launched = []

/-- An attempt keeps to what happened in it. -/
structure Kept (attempt : Attempt) (opened : Opened) : Prop where
  launches : opened.Launches attempt.trace
  recorded : opened.Recorded attempt.trace attempt.stored
  sound : attempt.failed = false → attempt.Sound opened

theorem kept_start (h : opened.start = .ok attempt) : attempt.Kept opened := by
  obtain ⟨c, d, hplans, rfl, hdone, -⟩ := Opened.plans_start h
  refine ⟨hplans.launches, hplans.recorded, fun _ => ⟨?_, ?_, ?_, hdone, rfl⟩⟩
  · exact hplans.follows.congr rfl rfl rfl rfl rfl
  · exact hplans.opens
  · exact hplans.stales

theorem Sound.quiet (h : attempt.Sound opened) {c : Coordinator} (hquiet : happened.Quiet)
    (hfollows : c.Follows opened (attempt.trace ++ [happened]))
    (hphases : ∀ stream, c.phases stream = attempt.coordinator.phases stream)
    (hstales : c.Stales attempt.stored) (hdone : c.done = attempt.coordinator.done)
    (hlaunched : c.launched = attempt.coordinator.launched) :
    ({ attempt with coordinator := c, trace := attempt.trace ++ [happened] } : Attempt).Sound
      opened := by
  refine ⟨hfollows, ?_, hstales, hdone.trans h.done, hlaunched.trans h.launched⟩
  intro stream phases begun loaded hstream
  rw [hphases] at hstream
  exact h.opens.quiet hquiet stream phases begun loaded hstream

/-! ## What partitions tell -/

section

variable (h : attempt.Kept opened) (hrunning : attempt.failed = false)
include h hrunning

theorem Kept.sealed {sent : Seal}
    (hreading : attempt.reading sent.partition = true) : ({ attempt with
        coordinator := attempt.coordinator.sealed sent
        trace := attempt.trace ++ [.sealed sent.partition sent.state] } : Attempt).Kept opened := by
  have hsound := h.sound hrunning
  refine ⟨h.launches.quiet trivial, h.recorded.quiet trivial, fun _ => ?_⟩
  exact hsound.quiet trivial (hsound.follows.sealed hreading) (fun _ => rfl) hsound.stales rfl rfl

theorem Kept.ended {index : Nat}
    {stopped : Bool} (hreading : attempt.reading index = true) : ({ attempt with
        coordinator := attempt.coordinator.ended index stopped
        trace := attempt.trace ++ [.ended index] } : Attempt).Kept opened := by
  have hsound := h.sound hrunning
  obtain ⟨run, hrun⟩ : ∃ run, attempt.coordinator.partitions[index]? = some run := by
    obtain ⟨read, hheld⟩ := Coordinator.held_of_reading hreading
    obtain ⟨run, hrun, -⟩ := Coordinator.held_slots hheld
    exact ⟨run, hrun⟩
  refine ⟨h.launches.quiet trivial, h.recorded.quiet trivial, fun _ => ?_⟩
  refine hsound.quiet trivial (hsound.follows.ended hreading) (fun stream => ?_) ?_ ?_ ?_
  · simp only [Coordinator.ended, hrun]
    exact Coordinator.phases_modify run.stream stream fun _ => rfl
  · intro stream other phases begun hother hphases
    simp only [Coordinator.ended, hrun, List.getElem?_modify] at hother
    obtain ⟨earlier, hearlier, rfl⟩ := Option.map_eq_some_iff.mp hother
    have hheld : earlier.phases = some phases := by
      split at hphases <;> exact hphases
    intro hbegun id hposition
    refine hsound.stales stream earlier phases begun hearlier hheld hbegun id ?_
    split at hposition <;> exact hposition
  · simp [Coordinator.ended, hrun]
  · simp [Coordinator.ended, hrun]

theorem Kept.congr {c : Coordinator} (hstreams : c.streams = attempt.coordinator.streams)
    (hpartitions : c.partitions = attempt.coordinator.partitions)
    (hwaiting : c.waiting = attempt.coordinator.waiting)
    (hsealing : c.sealing = attempt.coordinator.sealing)
    (hretired : c.retired = attempt.coordinator.retired) (hdone : c.done = attempt.coordinator.done)
    (hlaunched : c.launched = attempt.coordinator.launched) :
    ({ attempt with coordinator := c } : Attempt).Kept opened := by
  have hsound := h.sound hrunning
  refine ⟨h.launches, h.recorded, fun _ => ⟨?_, ?_, ?_, hdone.trans hsound.done,
    hlaunched.trans hsound.launched⟩⟩
  · exact hsound.follows.congr hstreams hpartitions hwaiting hsealing hretired
  · intro stream phases begun loaded hphases
    rw [Coordinator.phases, hstreams] at hphases
    exact hsound.opens stream phases begun loaded hphases
  · intro stream run phases begun hrun
    rw [hstreams] at hrun
    exact hsound.stales stream run phases begun hrun

/-! ## Plans -/

theorem Kept.plans :
    attempt.coordinator.Plans attempt.coordinator opened attempt.trace attempt.stored [] := by
  have hsound := h.sound hrunning
  have hnoted : attempt.coordinator.noted attempt.trace = attempt.trace := by
    simp [Coordinator.noted, hsound.launched]
  refine ⟨?_, ?_, ?_, ?_, hsound.stales, rfl, rfl, rfl⟩ <;> rw [hnoted]
  · exact hsound.follows
  · exact h.launches
  · exact h.recorded
  · exact hsound.opens

theorem Kept.planned {outcome : Coordinator.Outcome}
    (hplans : ∃ rest, attempt.coordinator.Plans outcome.1 opened attempt.trace attempt.stored rest ∧
      (outcome.2 = none → rest = [])) : (attempt.planned outcome).Kept opened := by
  obtain ⟨rest, hplans, hrest⟩ := hplans
  refine ⟨hplans.launches, hplans.recorded, fun hkept => ?_⟩
  have hnone : outcome.2 = none := by simpa [Attempt.planned] using hkept
  rw [hrest hnone] at hplans
  refine ⟨hplans.follows.congr rfl rfl rfl rfl rfl, hplans.opens, hplans.stales,
    hplans.done.trans (h.sound hrunning).done, rfl⟩

/-! ## Commits -/

/-- Telling the source what it is owed keeps the attempt. -/
theorem Kept.acknowledged
    (reported : Lib.OrdMap Nat Cursor) (positions : Lib.OrdMap Nat PartitionState) (turn : Turn)
    (replies : Nat → Reply) (attempts : Nat) :
    (attempt.acknowledged attempt.coordinator reported positions turn replies attempts).Kept
      opened := by
  have hsound := h.sound hrunning
  have htold : ∀ reports : List Report, opened.Launches (attempt.trace ++ reports.map .told) ∧
        opened.Recorded (attempt.trace ++ reports.map .told) attempt.stored ∧
        attempt.coordinator.Follows opened (attempt.trace ++ reports.map .told) ∧
        attempt.coordinator.Opens opened (attempt.trace ++ reports.map .told) [] := by
    intro reports
    induction reports using List.reverseRecOn with
    | nil => simpa using ⟨h.launches, h.recorded, hsound.follows, hsound.opens⟩
    | append_singleton reports made ih =>
      rw [List.map_append, List.map_singleton, ← List.append_assoc]
      obtain ⟨hlaunches, hrecorded, hfollows, hopens⟩ := ih
      exact ⟨hlaunches.quiet trivial, hrecorded.quiet trivial, hfollows.told made,
        hopens.quiet trivial⟩
  obtain ⟨hlaunches, hrecorded, hfollows, hopens⟩ := htold
    (attempt.coordinator.acknowledge reported positions turn replies attempts).reports
  exact ⟨hlaunches, hrecorded, fun _ => ⟨hfollows.congr rfl rfl rfl rfl rfl, hopens, hsound.stales,
    hsound.done, hsound.launched⟩⟩

end

def landing (attempt : Attempt) (meets : Meets) : Landed :=
  let prepared := attempt.coordinator.prepare meets.tables
  { positions := attempt.coordinator.readsAt prepared.collected.positions
    reported := attempt.coordinator.readsAt prepared.collected.reported
    forgotten := prepared.coordinator.forgotten prepared.delta meets.relief }

/-- What the attempt is once the commit made of all that waits landed, its coordinator being `c`. -/
def landed (attempt : Attempt) (meets : Meets) (c : Coordinator) : Attempt :=
  { attempt with
    coordinator := c
    stored := attempt.stored.apply (attempt.coordinator.changes meets.tables meets.relief)
    trace := attempt.trace ++ [.landed (attempt.landing meets)] }

/-- A commit finds nothing to record, does not land, lands unanswered, or lands and is answered. -/
theorem commit_cases (attempt : Attempt) (meets : Meets) (attempts : Nat) :
    let prepared := attempt.coordinator.prepare meets.tables
    let landing := attempt.coordinator.landing meets.tables meets.relief
    (prepared.delta = [] ∧ ∃ turn, attempt.commit meets attempts
        = attempt.acknowledged prepared.coordinator prepared.collected.reported
            prepared.collected.positions turn meets.replies attempts) ∨
      (∃ c, attempt.commit meets attempts = { attempt with coordinator := c, failed := true }) ∨
      (∃ c, attempt.commit meets attempts = { attempt.landed meets c with failed := true }) ∨
      ∃ turn, attempt.commit meets attempts
        = (attempt.landed meets landing).acknowledged landing prepared.collected.reported
            prepared.collected.positions turn meets.replies attempts := by
  intro prepared landing
  unfold commit
  dsimp only
  split
  · rename_i hnothing
    exact .inl ⟨hnothing.2, _, rfl⟩
  · refine .inr ?_
    split
    · exact .inl ⟨_, rfl⟩
    · split
      · exact .inr (.inl ⟨_, rfl⟩)
      · exact .inr (.inr ⟨_, rfl⟩)

theorem Kept.landed (h : attempt.Kept opened) (hrunning : attempt.failed = false) (meets : Meets) :
    (attempt.landed meets (attempt.coordinator.landing meets.tables meets.relief)).Kept opened := by
  have hsound := h.sound hrunning
  have hlands : attempt.coordinator.Lands meets.tables meets.relief (attempt.landing meets) :=
    ⟨rfl, rfl, rfl⟩
  obtain ⟨hopens, hstales⟩ := Coordinator.opens_of_recorded
    (c := attempt.coordinator.landing meets.tables meets.relief) opened
      _ _ Coordinator.begun_landing
  refine ⟨h.launches.concat fun job hjob => (by cases hjob),
    Coordinator.recorded_landed hsound.follows h.recorded hsound.stales hsound.done hlands,
    fun _ => ⟨hsound.follows.landing rfl meets.relief, hopens, hstales, ?_, ?_⟩⟩
  · rw [Attempt.landed, Coordinator.landing_eq]
    change Coordinator.markersLanded attempt.coordinator.done _ = _
    rw [hsound.done, DoneMarkers.ofState_apply]
  · rw [Attempt.landed, Coordinator.landing_eq]
    exact hsound.launched

theorem Kept.commit (h : attempt.Kept opened) (hrunning : attempt.failed = false) (meets : Meets)
    (attempts : Nat) : (attempt.commit meets attempts).Kept opened := by
  have hsound := h.sound hrunning
  rcases commit_cases attempt meets attempts with
    ⟨hdelta, turn, hcommit⟩ | ⟨c, hcommit⟩ | ⟨c, hcommit⟩ | ⟨turn, hcommit⟩ <;> rw [hcommit]
  · have hprepared : ({ attempt with
        coordinator := (attempt.coordinator.prepare meets.tables).coordinator } : Attempt).Kept
          opened := by
      obtain ⟨hopens, hstales⟩ := Coordinator.opens_of_recorded
        (c := (attempt.coordinator.prepare meets.tables).coordinator) opened _ _
        Coordinator.begun_prepare
      exact ⟨h.launches, h.recorded, fun _ => ⟨hsound.follows.prepared hdelta, hopens, hstales,
        hsound.done, hsound.launched⟩⟩
    exact hprepared.acknowledged hrunning _ _ turn meets.replies attempts
  · exact ⟨h.launches, h.recorded, fun hfailed => by cases hfailed⟩
  · have hlanded := h.landed hrunning meets
    exact ⟨hlanded.launches, hlanded.recorded, fun hfailed => by cases hfailed⟩
  · exact (h.landed hrunning meets).acknowledged hrunning _ _ turn meets.replies attempts

/-! ## Runs -/

theorem Kept.step (h : attempt.Kept opened) {event : Event} {next : Attempt}
    (hstep : attempt.step attempts event = some next) : next.Kept opened := by
  unfold Attempt.step at hstep
  dsimp only at hstep
  split at hstep
  · cases hstep
  · rename_i hfailed
    have hrunning : attempt.failed = false := by simpa using hfailed
    cases event with
    | sealed sent =>
      dsimp only at hstep
      split at hstep
      · rename_i hreading
        cases hstep
        exact h.sealed hrunning hreading
      · cases hstep
    | abandoned segment =>
      cases hstep
      exact h.congr hrunning rfl rfl rfl rfl rfl rfl rfl
    | ended index stopped =>
      dsimp only at hstep
      split at hstep
      · rename_i hreading
        cases hstep
        exact h.ended hrunning hreading
      · cases hstep
    | stop =>
      cases hstep
      exact h.congr hrunning rfl rfl rfl rfl rfl rfl rfl
    | replan stream planned =>
      dsimp only at hstep
      split at hstep
      · cases hstep
      · cases hstep
        exact h.planned hrunning ((h.plans hrunning).replanStream stream planned)
    | commit meets =>
      cases hstep
      exact h.commit hrunning meets attempts
    | advance plans =>
      dsimp only at hstep
      split at hstep
      · rename_i hsealing
        cases hstep
        exact h.planned hrunning ((h.plans hrunning).advancePhases hsealing plans)
      · cases hstep
    | settle replies =>
      cases hstep
      exact h.acknowledged hrunning ∅ ∅ .last replies attempts

theorem run_induction {motive : Attempt → Prop} {first last : Attempt} (hfirst : motive first)
    (hstep : ∀ {attempt event next}, motive attempt →
      attempt.step attempts event = some next → motive next)
    (hrun : first.run attempts events = some last) : motive last := by
  induction events generalizing first with
  | nil =>
    cases hrun
    exact hfirst
  | cons event events ih =>
    obtain ⟨next, hnext, hrest⟩ := Option.bind_eq_some_iff.mp hrun
    exact ih (hstep hfirst hnext) hrest

theorem kept_run {first last : Attempt} (hstart : opened.start = .ok first)
    (hrun : first.run attempts events = some last) :
    last.Kept opened :=
  run_induction (motive := fun attempt => attempt.Kept opened) (kept_start hstart)
    (fun h hstep => h.step hstep) hrun

end Attempt

end Rdlt.Engine
