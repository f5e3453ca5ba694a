/-
  Rdlt.Engine.Coordinator.Planning

  Planning again, while a coordinator follows what happened: phases begin only
  where nothing of the last is under way, every read launched is one that may be,
  and the entries a new phase makes stale are all state holds of the stream.
-/

import Rdlt.Engine.Coordinator.Following
import Rdlt.Lib.Each

namespace Rdlt.Engine

variable {opened : Opened} {trace : List Happened} {stored : PipelineState} {c d : Coordinator}

/-! ## Launches are noted in order -/

theorem Opened.launches_iff : opened.Launches trace ↔ Lib.Each (fun before happened =>
      ∀ job, happened = .launched (.read job) → opened.Admits before job) trace := by
  constructor
  · intro h before happened after hsplit job hjob
    exact h before job after (hjob ▸ hsplit)
  · intro h before job after hsplit
    exact h before _ after hsplit job rfl

theorem Opened.Launches.concat (h : opened.Launches trace) {happened : Happened}
    (hjob : ∀ job, happened = .launched (.read job) → opened.Admits trace job) :
    opened.Launches (trace ++ [happened]) :=
  Opened.launches_iff.mpr ((Opened.launches_iff.mp h).concat hjob)

theorem Opened.Recorded.launched (h : opened.Recorded trace stored) (launch : Launch) :
    opened.Recorded (trace ++ [.launched launch]) stored := by
  intro stream loaded hloaded htracked
  have hrecorded := h stream loaded hloaded htracked
  rw [Opened.view_concat]
  cases launch with
  | phase other phase starts =>
    simp only [PhaseView.saw]
    split
    · exact ⟨hrecorded.phase, hrecorded.positions, hrecorded.forgotten⟩
    · exact hrecorded
  | read job =>
    simp only [PhaseView.saw]
    split
    · exact ⟨hrecorded.phase, hrecorded.positions, hrecorded.forgotten⟩
    · exact ⟨hrecorded.phase, hrecorded.positions, hrecorded.forgotten⟩

/-- Everything state holds of a stream whose phase no commit recorded is stale. -/
def Coordinator.Stales (c : Coordinator) (stored : PipelineState) : Prop :=
  ∀ (stream : Nat) (run : StreamRun) (phases : Phases) (begun : Begun),
    c.streams[stream]? = some run → run.phases = some phases →
    phases.begun = some begun → ∀ id, stored.position run.name id ≠ none → id ∈ begun.stale

def Coordinator.noted (c : Coordinator) (trace : List Happened) : List Happened :=
  trace ++ c.launched.map .launched

/-- A coordinator `d` in the midst of planning, begun by `c`, which is to launch reads of `rest`
    yet. -/
structure Coordinator.Plans (c d : Coordinator) (opened : Opened) (trace : List Happened)
    (stored : PipelineState) (rest : List (Nat × PartitionId)) : Prop where
  follows : d.Follows opened (d.noted trace)
  launches : opened.Launches (d.noted trace)
  recorded : opened.Recorded (d.noted trace) stored
  opens : d.Opens opened (d.noted trace) rest
  stales : d.Stales stored
  sealing : d.sealing = c.sealing
  owed : d.owed = c.owed
  done : d.done = c.done

namespace Coordinator

variable {stream : Nat} {id : PartitionId} {cursor : Option Cursor} {phases : Phases}
  {rest : List (Nat × PartitionId)}

theorem noted_concat {launch : Launch} (h : d.launched = c.launched ++ [launch]) :
    d.noted trace = c.noted trace ++ [.launched launch] := by
  simp [noted, h]

/-! ## Reads launched -/

theorem resumesAt_launched {view : PhaseView} {name : StreamName} (job : Job)
    (hstream : job.stream = stream) (hid : id ≠ job.id) :
    (view.saw stream name (.launched (.read job))).resumesAt id = view.resumesAt id := by
  simp [PhaseView.saw, hstream, PhaseView.resumesAt, hid]

theorem mem_opened_launched {view : PhaseView} {name : StreamName} {job : Job} :
    id ∈ (view.saw stream name (.launched (.read job))).opened ↔
      id ∈ view.opened ∨ job.stream = stream ∧ id = job.id := by
  simp only [PhaseView.saw]
  split
  · rename_i hstream
    simp [hstream, or_comm]
  · rename_i hstream
    simp [hstream]

theorem exists_of_phases_placing {other : Nat}
    (h : (d.placing stream id cursor).phases other = some phases) :
    ∃ held, d.phases other = some held ∧ phases.begun = held.begun := by
  rw [phases_placing] at h
  split at h
  · rename_i hsame
    obtain ⟨held, hheld, rfl⟩ := Option.map_eq_some_iff.mp h
    exact ⟨held, hsame ▸ hheld, rfl⟩
  · exact ⟨phases, h, rfl⟩

theorem exists_of_streams_placing {other : Nat} {run : StreamRun}
    (hrun : (d.placing stream id cursor).streams[other]? = some run)
    (hphases : run.phases = some phases) :
    ∃ earlier held, d.streams[other]? = some earlier ∧ earlier.phases = some held ∧
      run.name = earlier.name ∧ phases.begun = held.begun := by
  simp only [placing, List.getElem?_modify] at hrun
  obtain ⟨earlier, hearlier, rfl⟩ := Option.map_eq_some_iff.mp hrun
  split at hphases
  · obtain ⟨held, hheld, rfl⟩ := Option.map_eq_some_iff.mp hphases
    exact ⟨earlier, held, hearlier, hheld, by split <;> rfl, rfl⟩
  · exact ⟨earlier, phases, hearlier, hphases, by split <;> rfl, rfl⟩

/-- A read is launched that may be, from where it resumes. -/
theorem Plans.launched {loaded : Loaded} (h : c.Plans d opened trace stored ((stream, id) :: rest))
    (hfollows : (d.placing stream id cursor).Follows opened
      (d.noted trace ++ [.launched (.read (d.job stream id cursor))]))
    (hadmits : (Watch.after (d.noted trace)).Admits (d.job stream id cursor))
    (hloaded : opened.streams[stream]? = some loaded)
    (hcursor : (opened.view loaded stream (d.noted trace)).resumesAt id = some cursor) :
    c.Plans (d.placing stream id cursor) opened trace stored rest := by
  have hnoted : (d.placing stream id cursor).noted trace
      = d.noted trace ++ [.launched (.read (d.job stream id cursor))] := noted_concat rfl
  refine ⟨hnoted ▸ hfollows, ?_, ?_, ?_, ?_, h.sealing, h.owed, h.done⟩
  · rw [hnoted]
    refine h.launches.concat fun job hjob => ?_
    obtain rfl : job = d.job stream id cursor := by
      injection hjob with hlaunch
      injection hlaunch with hjob
      exact hjob.symm
    exact ⟨hadmits, loaded, hloaded, hcursor⟩
  · rw [hnoted]
    exact h.recorded.launched _
  · intro other phases begun loaded' hphases hbegun hloaded' id' start hstart
    obtain ⟨held, hheld, hsame⟩ := exists_of_phases_placing hphases
    rw [hnoted, Opened.view_concat, mem_opened_launched]
    rcases h.opens other held begun loaded' hheld (hsame ▸ hbegun) hloaded' id' start hstart with
      hopened | hrest
    · exact .inl (.inl hopened)
    · rcases List.mem_cons.mp hrest with hfirst | hrest
      · obtain ⟨rfl, rfl⟩ := Prod.mk.inj hfirst
        exact .inl (.inr ⟨rfl, rfl⟩)
      · exact .inr hrest
  · intro other run phases begun hrun hphases hbegun id' hposition
    obtain ⟨earlier, held, hearlier, hheld, hname, hsame⟩ := exists_of_streams_placing hrun hphases
    exact h.stales other earlier held begun hearlier hheld (hsame ▸ hbegun) id' (hname ▸ hposition)

theorem Plans.placing {loaded : Loaded} (h : c.Plans d opened trace stored ((stream, id) :: rest))
    (hready : d.slots.Ready stream id) (hloaded : opened.streams[stream]? = some loaded)
    (hcursor : (opened.view loaded stream (d.noted trace)).resumesAt id = some cursor) :
    c.Plans (d.placing stream id cursor) opened trace stored rest :=
  h.launched (h.follows.placing hready cursor) (h.follows.admits hready cursor) hloaded hcursor

/-- The reads of a stream launched in turn: each once, of partitions that may start, from where they
    resume. -/
theorem Plans.launchAll (loaded : Loaded) {starts : List (PartitionId × Option Cursor)}
    (h : c.Plans d opened trace stored (starts.map fun start => (stream, start.1)))
    (hready : ∀ start ∈ starts, d.slots.Ready stream start.1)
    (hloaded : opened.streams[stream]? = some loaded)
    (hcursor : ∀ start ∈ starts,
      (opened.view loaded stream (d.noted trace)).resumesAt start.1 = some start.2)
    (hnodup : (starts.map Prod.fst).Nodup) :
    ∃ rest, c.Plans (d.launchAll stream starts).1 opened trace stored rest ∧
      ((d.launchAll stream starts).2 = none → rest = []) := by
  obtain ⟨rest, ⟨hplans, -⟩, hrest⟩ := launchAll_induction (motive := fun starts d =>
      c.Plans d opened trace stored (starts.map fun start => (stream, start.1)) ∧
        (∀ start ∈ starts, d.slots.Ready stream start.1) ∧
        (∀ start ∈ starts,
          (opened.view loaded stream (d.noted trace)).resumesAt start.1 = some start.2) ∧
        (starts.map Prod.fst).Nodup)
    (fun {d id cursor starts} ⟨hplans, hready, hcursor, hnodup⟩ => by
      obtain ⟨hfresh, hnodup⟩ := List.nodup_cons.mp hnodup
      have hfirst := hready _ List.mem_cons_self
      have hother : ∀ start ∈ starts, start.1 ≠ id := fun start hstart hsame =>
        hfresh (List.mem_map.mpr ⟨start, hstart, hsame⟩)
      refine ⟨hplans.placing hfirst hloaded (hcursor _ List.mem_cons_self), fun start hstart => ?_,
        fun start hstart => ?_, hnodup⟩
      · rw [slots_placing hplans.follows.sound hfirst]
        obtain ⟨hopen, -⟩ := place_open hplans.follows.sound hfirst
        exact Lib.Slots.Ready.take hplans.follows.sound hopen
          (hready start (List.mem_cons_of_mem _ hstart)) (hother start hstart)
      · rw [show (d.placing stream id cursor).noted trace
            = d.noted trace ++ [.launched (.read (d.job stream id cursor))] from noted_concat rfl,
          Opened.view_concat]
        exact (resumesAt_launched (d.job stream id cursor) rfl (hother start hstart)).trans
          (hcursor start (List.mem_cons_of_mem _ hstart)))
    ⟨h, hready, hcursor, hnodup⟩
  exact ⟨_, hplans, fun hnone => by rw [hrest hnone]; rfl⟩

/-! ## Phases -/

/-- Changing what else there is to streams keeps planning. -/
theorem Plans.keep {e : Coordinator}
    (h : c.Plans d opened trace stored rest) (hfollows : e.Follows opened (d.noted trace))
    (hlaunched : e.launched = d.launched)
    (hbegun : ∀ stream, (e.phases stream).bind Phases.begun = (d.phases stream).bind Phases.begun)
    (hnames : e.streams.map StreamRun.name = d.streams.map StreamRun.name)
    (hsealing : e.sealing = d.sealing) (howed : e.owed = d.owed) (hdone : e.done = d.done) :
    c.Plans e opened trace stored rest := by
  have hnoted : e.noted trace = d.noted trace := by rw [noted, hlaunched, noted]
  have hheld : ∀ {stream phases begun}, e.phases stream = some phases → phases.begun = some begun →
      ∃ held, d.phases stream = some held ∧ held.begun = some begun := by
    intro stream phases begun hphases hsome
    have hsame := hbegun stream
    rw [hphases, Option.bind_some, hsome] at hsame
    exact Option.bind_eq_some_iff.mp hsame.symm
  refine ⟨hnoted ▸ hfollows, hnoted ▸ h.launches, hnoted ▸ h.recorded, ?_, ?_,
    hsealing.trans h.sealing, howed.trans h.owed, hdone.trans h.done⟩
  · intro stream phases begun loaded hphases hsome hloaded id start hstart
    obtain ⟨held, hheld, hsome⟩ := hheld hphases hsome
    rw [hnoted]
    exact h.opens stream held begun loaded hheld hsome hloaded id start hstart
  · intro stream run phases begun hrun hphases hsome id hposition
    obtain ⟨held, hheld, hsome⟩ := hheld (phases_eq_some.mpr ⟨run, hrun, hphases⟩) hsome
    obtain ⟨earlier, hearlier, hheld⟩ := phases_eq_some.mp hheld
    have hname : run.name = earlier.name := by
      have hat := congrArg (fun names => names[stream]?) hnames
      simpa [hrun, hearlier] using hat
    exact h.stales stream earlier held begun hearlier hheld hsome id (hname ▸ hposition)

theorem map_name_modify {streams : List StreamRun} (stream : Nat) {change : StreamRun → StreamRun}
    (hname : ∀ run, (change run).name = run.name) :
    (streams.modify stream change).map StreamRun.name = streams.map StreamRun.name := by
  refine List.ext_getElem? fun other => ?_
  simp only [List.getElem?_map, List.getElem?_modify]
  cases streams[other]? with
  | none => rfl
  | some run =>
    simp only [Option.map_eq_map, Option.map_some]
    split
    · rw [hname]
    · rfl

theorem Plans.settled (h : c.Plans d opened trace stored rest) (stream : Nat) (settled : Bool) :
    c.Plans (d.setPhases stream fun phases => { phases with settled }) opened trace
      stored rest := by
  refine h.keep (h.follows.settled stream settled) rfl (fun other => ?_) ?_ rfl rfl rfl
  · rw [phases_setPhases]
    split
    · rename_i hsame
      rw [hsame]
      cases d.phases stream <;> rfl
    · rfl
  · exact map_name_modify stream fun _ => rfl

theorem Plans.named (h : c.Plans d opened trace stored rest)
    (stream : Nat) (named : Finset PartitionId) :
    c.Plans { d with streams := d.streams.modify stream fun run => { run with named } } opened trace
      stored rest :=
  h.keep (h.follows.named stream named) rfl
    (fun other => congrArg (Option.bind · Phases.begun) (phases_modify stream other fun _ => rfl))
    (map_name_modify stream fun _ => rfl) rfl rfl rfl

theorem Plans.dropped (h : c.Plans d opened trace stored rest)
      (hphases : d.phases stream = some phases) (planned : PartitionPlan) :
    c.Plans (d.dropped stream phases planned) opened trace stored rest := by
  refine h.keep (h.follows.dropped hphases planned) rfl (fun other => ?_)
    (map_name_modify stream fun _ => rfl) rfl rfl rfl
  rw [phases_dropped]
  split
  · rename_i hsame
    rw [hsame]
    cases d.phases stream <;> rfl
  · rfl

section

variable (h : c.Plans d opened trace stored [])
include h

/-- A phase begins that makes stale all state holds of its stream. -/
theorem Plans.beginning
    (hphases : d.phases stream = some phases) (hended : d.phaseEnded stream = true)
    (hsealing : d.sealing = ∅) (next : Nat) (planned : PartitionPlan) :
    c.Plans (d.beginning stream next phases planned.starts) opened trace stored
      (planned.partitions.map fun id => (stream, id)) := by
  have hnoted : (d.beginning stream next phases planned.starts).noted trace
      = d.noted trace ++ [.launched (.phase stream next planned.starts)] := noted_concat rfl
  refine ⟨?_, ?_, ?_, ?_, ?_, h.sealing, h.owed, h.done⟩
  · rw [hnoted]
    exact h.follows.beginning hphases hended hsealing next planned.starts
  · rw [hnoted]
    exact h.launches.concat fun job hjob => by injection hjob with hlaunch; cases hlaunch
  · rw [hnoted]
    exact h.recorded.launched _
  · intro other held begun loaded hheld hbegun hloaded id start hstart
    rw [phases_beginning] at hheld
    split at hheld
    · rename_i hsame
      subst hsame
      obtain ⟨earlier, -, rfl⟩ := Option.map_eq_some_iff.mp hheld
      have hstarts : begun.starts = planned.starts := by rw [← Option.some.inj hbegun]
      exact .inr (List.mem_map_of_mem (planned.placed id start (hstarts ▸ hstart)))
    · rename_i hother
      rw [hnoted, Opened.view_concat, PhaseView.saw, if_neg (Ne.symm hother)]
      rcases h.opens other held begun loaded hheld hbegun hloaded id start hstart with
        hopened | hnone
      · exact .inl hopened
      · cases hnone
  · intro other run held begun hrun hheld hbegun id hposition
    simp only [Coordinator.beginning, setPhases, List.getElem?_modify] at hrun
    obtain ⟨earlier, hearlier, rfl⟩ := Option.map_eq_some_iff.mp hrun
    by_cases hsame : stream = other
    · subst hsame
      simp only [if_true] at hheld hposition
      obtain ⟨before, hbefore, rfl⟩ := Option.map_eq_some_iff.mp hheld
      rw [← Option.some.inj hbegun]
      refine List.mem_append.mpr ?_
      cases hfirst : before.begun with
      | some begun =>
          exact .inl (h.stales stream earlier before begun hearlier hbefore hfirst id hposition)
      | none =>
        -- The phase is recorded: what state holds of the stream, the phase committed.
        obtain ⟨loaded, hloaded, htracks⟩ :=
          h.follows.tracks (phases_eq_some.mpr ⟨earlier, hearlier, hbefore⟩)
        have hfollows := h.follows.streams hearlier hloaded
        have htracked : loaded.plan.tracked opened.follow = true := by
          rw [← hfollows.tracked, hbefore]
          rfl
        have hrecorded := h.recorded stream loaded hloaded htracked
        rw [hfollows.name, hrecorded.positions, PhaseView.held] at hposition
        refine .inr ?_
        rw [Std.ExtTreeMap.mem_keys, Std.ExtTreeMap.mem_iff_isSome_getElem?,
          (htracks.recorded hfirst).2.2 id]
        split at hposition
        · exact absurd rfl hposition
        · exact Option.isSome_iff_ne_none.mpr hposition
    · simp only [if_neg hsame] at hheld hposition
      exact h.stales other earlier held begun hearlier hheld hbegun id hposition

/-! ## Plans -/

theorem Plans.rebalance (stream : Nat) (planned : PartitionPlan) :
    ∃ rest, c.Plans (d.rebalance stream planned).1 opened trace stored rest ∧
      ((d.rebalance stream planned).2 = none → rest = []) := by
  cases hphases : d.phases stream with
  | none =>
    refine ⟨[], ?_, fun _ => rfl⟩
    simpa [Coordinator.rebalance, hphases] using h
  | some phases =>
    simp only [Coordinator.rebalance, hphases]
    obtain ⟨loaded, hloaded, htracks⟩ := h.follows.tracks hphases
    have hdropped := h.dropped hphases planned
    refine Plans.launchAll loaded ⟨hdropped.follows, hdropped.launches,
      hdropped.recorded, fun other held begun loaded hheld hbegun hloaded id start hstart => ?_,
      hdropped.stales, hdropped.sealing, hdropped.owed, hdropped.done⟩ (fun start hstart => ?_)
      hloaded (fun start hstart => ?_) (nodup_starts d phases planned)
    · rcases hdropped.opens other held begun loaded hheld hbegun hloaded id start hstart with
        hopened | hnone
      · exact .inl hopened
      · cases hnone
    · obtain ⟨hnamed, hsettled, -⟩ := mem_starts hstart
      exact ready_dropped h.follows.sound hphases hnamed hsettled
    · obtain ⟨-, -, hresumes⟩ := mem_starts hstart
      change (opened.view loaded stream (d.noted trace)).resumesAt start.1 = some start.2
      cases hbegun : phases.begun with
      | none =>
        obtain ⟨hrecorded, -, hcommitted⟩ := htracks.recorded hbegun
        rw [PhaseView.resumesAt, if_neg (by simp [hrecorded]), ← hcommitted, hresumes]
      | some begun =>
        -- No commit recorded the phase: one that is to start from its planned start has a read.
        obtain ⟨hfirst, hstarts, hnone⟩ := htracks.begun hbegun
        rw [hnone] at hresumes
        have hcursor : start.2 = none := by simpa [resumes] using hresumes.symm
        rw [PhaseView.resumesAt, if_pos hfirst, hcursor]
        split
        · rfl
        · rename_i hclosed
          cases hstart : (opened.view loaded stream (d.noted trace)).starts[start.1]? with
          | none => rfl
          | some cursor =>
            rw [← hstarts] at hstart
            rcases h.opens stream phases begun loaded hphases hbegun hloaded _ _ hstart with
              hopened | hnone
            · exact absurd hopened hclosed
            · cases hnone

theorem Plans.replanStream (stream : Nat) (planned : PartitionPlan) :
    ∃ rest, c.Plans (d.replanStream stream planned).1 opened trace stored rest ∧
      ((d.replanStream stream planned).2 = none → rest = []) := by
  have hnamed := h.named stream planned.partitions.toFinset
  unfold Coordinator.replanStream
  dsimp only
  split
  · exact ⟨[], hnamed, fun _ => rfl⟩
  · split
    · exact ⟨[], hnamed.settled stream false, fun _ => rfl⟩
    · exact (hnamed.settled stream false).rebalance stream planned

/-- A stream whose phase ended, nothing of it being under way, is planned again. -/
theorem Plans.planAgain
    (hended : d.phaseEnded stream = true) (hsealing : d.sealing = ∅) (planned : PartitionPlan) :
    ∃ rest, c.Plans (d.planAgain stream planned).1 opened trace stored rest ∧
      ((d.planAgain stream planned).2 = none → rest = []) := by
  unfold Coordinator.planAgain
  split
  · exact ⟨[], h, fun _ => rfl⟩
  · rename_i phases hphases
    split
    · rename_i next hnext
      unfold Coordinator.begin
      split
      · rename_i run phases' hrun hphases'
        split
        · exact ⟨[], h, fun _ => rfl⟩
        · obtain ⟨loaded, hloaded, -⟩ := h.follows.tracks hphases'
          have hbegins := h.beginning hphases' hended hsealing next planned
          refine Plans.launchAll loaded ?_ (fun start _ => ?_) hloaded (fun start hstart => ?_) ?_
          · simpa [List.map_map, Function.comp_def] using hbegins
          · exact ready_beginning hphases' next planned.starts start.1
          · obtain ⟨id, -, rfl⟩ := List.mem_map.mp hstart
            rw [show (d.beginning stream next phases' planned.starts).noted trace
                = d.noted trace ++ [.launched (.phase stream next planned.starts)] from
                noted_concat rfl, Opened.view_concat]
            simp [PhaseView.saw, PhaseView.resumesAt]
          · simpa [List.map_map, Function.comp_def] using planned.distinct
      · exact ⟨[], h, fun _ => rfl⟩
    · exact ⟨[], h.settled stream true, fun _ => rfl⟩

theorem Plans.advanceEach (hsealing : c.sealing = ∅)
    (plans : Nat → PartitionPlan) (streams : List Nat) :
    ∃ rest, c.Plans (Coordinator.advanceEach plans streams d).1 opened trace stored rest ∧
      ((Coordinator.advanceEach plans streams d).2 = none → rest = []) := by
  induction streams generalizing d with
  | nil => exact ⟨[], h, fun _ => rfl⟩
  | cons stream streams ih =>
    rw [Coordinator.advanceEach]
    split
    · rename_i hended
      obtain ⟨rest, hplans, hrest⟩ := h.planAgain hended (h.sealing.trans hsealing) (plans stream)
      cases houtcome : d.planAgain stream (plans stream) with
      | mk e error =>
        rw [houtcome] at hplans hrest
        cases error with
        | none =>
          rw [hrest rfl] at hplans
          exact ih hplans
        | some error => exact ⟨rest, hplans, hrest⟩
    · exact ih h

theorem Plans.advancePhases (hsealing : c.sealing = ∅) (plans : Nat → PartitionPlan) :
    ∃ rest, c.Plans (d.advancePhases plans).1 opened trace stored rest ∧
      ((d.advancePhases plans).2 = none → rest = []) := by
  unfold Coordinator.advancePhases
  split
  · exact ⟨[], h, fun _ => rfl⟩
  · exact h.advanceEach hsealing plans _

end

end Coordinator

end Rdlt.Engine
