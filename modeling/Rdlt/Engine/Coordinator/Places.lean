/-
  Rdlt.Engine.Coordinator.Places

  The places of an attempt's reads as a table of slots: a partition holds the
  place its read has, what is pending of a place is the seals no commit has
  taken, and a stream's phase indexes its reads.
-/

import Rdlt.Engine.Coordinator.Attempt
import Rdlt.Lib.Patch
import Rdlt.Lib.Slots

namespace Rdlt.Engine

open Lib

namespace Coordinator

variable {index : Nat} {phases : Phases} {planned : PartitionPlan}

variable {c : Coordinator}

/-! ## Phases of streams -/

theorem phases_setPhases (c : Coordinator) (stream other : Nat) (change : Phases → Phases) :
    (c.setPhases stream change).phases other
      = if other = stream then (c.phases stream).map change else c.phases other := by
  simp only [phases, setPhases, List.getElem?_modify]
  by_cases hsame : other = stream
  · subst hsame
    cases c.streams[other]? <;> simp
  · cases c.streams[other]? <;> simp [hsame, Ne.symm hsame]

theorem phases_modify {streams : List StreamRun} (stream other : Nat)
    {change : StreamRun → StreamRun} (hkept : ∀ run, (change run).phases = run.phases) :
    ((streams.modify stream change)[other]?).bind StreamRun.phases
      = (streams[other]?).bind StreamRun.phases := by
  rw [List.getElem?_modify]
  cases streams[other]? with
  | none => rfl
  | some run =>
    by_cases hsame : stream = other
    · simp [hsame, hkept]
    · simp [hsame]

/-! ## The table of places -/

def slots (c : Coordinator) : Slots Nat PartitionId where
  held index := (c.partitions[index]?).map fun run => ⟨run.stream, run.id, run.ended⟩
  index stream := (c.phases stream).map fun phases id => phases.reading[id]?
  pending := c.sealing
  retired := c.retired

theorem held_slots {holder : Holder Nat PartitionId} (h : c.slots.held index = some holder) :
    ∃ run, c.partitions[index]? = some run ∧ run.stream = holder.group ∧ run.id = holder.key ∧
      run.ended = holder.ended := by
  obtain ⟨run, hrun, rfl⟩ := Option.map_eq_some_iff.mp h
  exact ⟨run, hrun, rfl, rfl, rfl⟩

theorem held_slots_of {run : PartitionRun} (h : c.partitions[index]? = some run) :
    c.slots.held index = some ⟨run.stream, run.id, run.ended⟩ := by
  simp [slots, h]

theorem index_slots {stream : Nat} {places : PartitionId → Option Nat}
    (h : c.slots.index stream = some places) :
    ∃ phases, c.phases stream = some phases ∧ ∀ id, places id = phases.reading[id]? := by
  obtain ⟨phases, hphases, rfl⟩ := Option.map_eq_some_iff.mp h
  exact ⟨phases, hphases, fun _ => rfl⟩

theorem index_slots_of {stream : Nat} (h : c.phases stream = some phases) :
    c.slots.index stream = some fun id => phases.reading[id]? := by
  simp [slots, h]

theorem endedAt_iff :
    c.endedAt index = true ↔ ∃ holder, c.slots.held index = some holder ∧ holder.ended = true := by
  simp [endedAt, slots, Option.any_eq_true, Option.map_eq_some_iff]

theorem slots_congr {d : Coordinator}
    (hheld : d.partitions.map (fun run => (run.stream, run.id, run.ended))
      = c.partitions.map fun run => (run.stream, run.id, run.ended))
    (hindex : ∀ stream, (d.phases stream).map Phases.reading = (c.phases stream).map Phases.reading)
    (hsealing : d.sealing = c.sealing) (hretired : d.retired = c.retired) :
    d.slots = c.slots := by
  refine Slots.ext (funext fun index => ?_) (funext fun stream => ?_) hsealing hretired
  · have hat := congrArg (fun runs => runs[index]?) hheld
    simp only [List.getElem?_map] at hat
    have hholder := congrArg (Option.map fun read : Nat × PartitionId × Bool =>
        (⟨read.1, read.2.1, read.2.2⟩ : Holder Nat PartitionId)) hat
    rw [Option.map_map, Option.map_map] at hholder
    exact hholder
  · have hat := congrArg
      (Option.map fun (reading : OrdMap PartitionId Nat) (id : PartitionId) => reading[id]?)
      (hindex stream)
    rw [Option.map_map, Option.map_map] at hat
    exact hat

/-! ## What partitions tell -/

theorem slots_ended (c : Coordinator) (index : Nat) (stopped : Bool) :
    (c.ended index stopped).slots = c.slots.finish index := by
  cases hrun : c.partitions[index]? with
  | none =>
    have hsame : c.ended index stopped = c := by simp [ended, hrun]
    rw [hsame]
    refine Slots.ext (funext fun other => ?_) rfl rfl rfl
    simp only [Slots.finish]
    split
    · rename_i hother
      simp [slots, hother, hrun]
    · rfl
  | some run =>
    refine Slots.ext (funext fun other => ?_) (funext fun stream => ?_) ?_ ?_
    · simp only [slots, ended, hrun, Slots.finish, List.getElem?_set]
      by_cases hother : other = index
      · subst hother
        have hbound : other < c.partitions.length := by
          rw [List.getElem?_eq_some_iff] at hrun
          exact hrun.1
        simp [hbound]
      · simp [hother, Ne.symm hother]
    · simp only [slots, ended, hrun, Slots.finish]
      refine congrArg (Option.map _) (phases_modify run.stream stream fun _ => ?_)
      rfl
    · simp [slots, ended, hrun, Slots.finish]
    · simp [slots, ended, hrun, Slots.finish]

/-! ## Commits -/

theorem reading_taken (phases : Phases) : phases.taken.reading = phases.reading := by
  unfold Phases.taken
  split <;> rfl

theorem slots_prepare (c : Coordinator) (tables : List String) :
    (c.prepare tables).coordinator.slots = c.slots.settle := by
  refine Slots.ext rfl (funext fun stream => ?_) rfl rfl
  simp only [slots, Slots.settle, prepare, sequencesDelta, collect, phaseDelta, phases,
    List.getElem?_map]
  cases c.streams[stream]? with
  | none => rfl
  | some run =>
    cases hphases : run.phases with
    | none => simp [hphases]
    | some phases => simp [hphases, reading_taken]

section

variable (c) (positions : OrdMap Nat PartitionState)

/-- Recording positions changes the committed positions of phases only. -/
theorem recordPositions_cases : (c.recordPositions positions).partitions = c.partitions ∧
      (c.recordPositions positions).sealing = c.sealing ∧
      (c.recordPositions positions).retired = c.retired ∧
      ∀ stream, ((c.recordPositions positions).phases stream).map Phases.reading
        = (c.phases stream).map Phases.reading := by
  unfold recordPositions
  induction positions.toList generalizing c with
  | nil => exact ⟨rfl, rfl, rfl, fun _ => rfl⟩
  | cons entry entries ih =>
    rw [List.foldl_cons]
    cases hrun : c.partitions[entry.1]? with
    | none => exact ih c
    | some run =>
      obtain ⟨hpartitions, hsealing, hretired, hreading⟩ := ih (c.setPhases run.stream fun phases =>
        if phases.reading[run.id]? = some entry.1 then
          { phases with committed := phases.committed.insert run.id entry.2 }
        else phases)
      refine ⟨hpartitions, hsealing, hretired, fun stream => (hreading stream).trans ?_⟩
      rw [phases_setPhases]
      split
      · rename_i hsame
        rw [hsame, Option.map_map]
        congr 1
        funext phases
        simp only [Function.comp_apply]
        split <;> rfl
      · rfl

theorem slots_stand : (c.stand positions).slots = c.slots := by
  refine Slots.ext (funext fun index => ?_) rfl rfl rfl
  simp only [slots, stand, List.getElem?_mapIdx, Option.map_map]
  rfl

theorem slots_landed (delta : List StateEdit) : (c.landed positions delta).slots = c.slots := by
  rw [landed, slots_stand]
  obtain ⟨hpartitions, hsealing, hretired, hreading⟩ := recordPositions_cases
    { c.cyclesLanded with done := markersLanded c.done delta } positions
  refine slots_congr (by rw [hpartitions]; rfl) (fun stream => (hreading stream).trans ?_)
    hsealing hretired
  simp only [phases, cyclesLanded, List.getElem?_map]
  cases c.streams[stream]? <;> rfl

end

/-! ## Reads launched -/

variable {stream : Nat} {id : PartitionId}

/-- A partition that may start takes a place it may take, of those there are or the next, and of
    the free places only that one is taken. -/
theorem place_open (hs : c.slots.Sound) (hready : c.slots.Ready stream id) :
    c.slots.Open stream id (c.place stream id).1 ∧
      (c.place stream id).2 = c.retired.erase (c.place stream id).1 ∧
      (c.place stream id).1 ≤ c.partitions.length := by
  obtain ⟨places, hindex, hheld⟩ := hready
  obtain ⟨phases, hphases, hplaces⟩ := index_slots hindex
  have hbound : ∀ {index holder}, c.slots.held index = some holder →
      index < c.partitions.length := by
    intro index holder hholder
    obtain ⟨run, hrun, -⟩ := held_slots hholder
    exact (List.getElem?_eq_some_iff.mp hrun).1
  cases hplace : phases.reading[id]? with
  | some index =>
    have hslot : places id = some index := (hplaces id).trans hplace
    obtain ⟨⟨holder, hholder, hended⟩, -⟩ := hheld index hslot
    have hat : c.endedAt index = true := endedAt_iff.mpr ⟨holder, hholder, hended⟩
    have hsame : c.place stream id = (index, c.retired) := by
      simp [place, hphases, hplace, Option.filter, hat]
    rw [hsame]
    refine ⟨⟨places, hindex, .inl hslot⟩, (Finset.erase_eq_of_notMem fun hretired => ?_).symm,
      (hbound hholder).le⟩
    exact hs.retiredUnnamed hretired hindex hslot
  | none =>
    have hnone : places id = none := (hplaces id).trans hplace
    cases hfree : (c.retired.sort (· ≤ ·)).find? fun index => index ∉ c.sealing with
    | some index =>
      have hsame : c.place stream id = (index, c.retired.erase index) := by
        simp only [place, hphases, Option.bind_some, hplace, Option.filter_none, hfree]
      have hretired : index ∈ c.retired := by
        simpa using List.mem_of_find?_eq_some hfree
      obtain ⟨holder, hholder, -⟩ := hs.retiredHeld hretired
      rw [hsame]
      exact ⟨⟨places, hindex, .inr ⟨hnone, .inl hretired⟩⟩, rfl, (hbound hholder).le⟩
    | none =>
      have hsame : c.place stream id = (c.partitions.length, c.retired) := by
        simp only [place, hphases, Option.bind_some, hplace, Option.filter_none, hfree]
      have hfresh : c.slots.held c.partitions.length = none := by simp [slots]
      rw [hsame]
      refine ⟨⟨places, hindex, .inr ⟨hnone, .inr hfresh⟩⟩,
        (Finset.erase_eq_of_notMem fun hretired => ?_).symm, le_refl _⟩
      obtain ⟨holder, hholder, -⟩ := hs.retiredHeld hretired
      rw [hfresh] at hholder
      cases hholder

theorem getElem?_placing (hbound : (c.place stream id).1 ≤ c.partitions.length)
    (cursor : Option Cursor) (index : Nat) : (c.placing stream id cursor).partitions[index]?
      = if index = (c.place stream id).1 then some (PartitionRun.starting stream id cursor)
        else c.partitions[index]? := by
  simp only [placing]
  split
  · rename_i hinside
    rw [List.getElem?_set]
    by_cases hindex : index = (c.place stream id).1
    · simp [hindex, hinside]
    · simp [hindex, Ne.symm hindex]
  · rename_i houtside
    have hlast : (c.place stream id).1 = c.partitions.length :=
      le_antisymm hbound (not_lt.mp houtside)
    rw [hlast]
    rcases lt_trichotomy index c.partitions.length with hlt | heq | hgt
    · rw [List.getElem?_append_left hlt, if_neg (by omega)]
    · simp [heq]
    · rw [if_neg (by omega), List.getElem?_eq_none (by simp; omega),
        List.getElem?_eq_none (by omega)]

theorem phases_placing (cursor : Option Cursor) (other : Nat) :
    (c.placing stream id cursor).phases other
      = if other = stream then (c.phases stream).map fun phases =>
          { phases with reading := phases.reading.insert id (c.place stream id).1 }
        else c.phases other := by
  simp only [phases, placing, List.getElem?_modify]
  by_cases hsame : other = stream
  · subst hsame
    cases c.streams[other]? <;> simp
  · cases c.streams[other]? <;> simp [hsame, Ne.symm hsame]

theorem slots_placing_of (hretired : (c.place stream id).2 = c.retired.erase (c.place stream id).1)
    (hbound : (c.place stream id).1 ≤ c.partitions.length) (cursor : Option Cursor) :
    (c.placing stream id cursor).slots = c.slots.take stream id (c.place stream id).1 := by
  refine Slots.ext (funext fun index => ?_) (funext fun other => ?_) rfl hretired
  · simp only [slots, Slots.take, getElem?_placing hbound]
    split <;> rfl
  · simp only [slots, Slots.take, phases_placing]
    split
    · rw [Option.map_map, Option.map_map]
      congr 1
      funext phases other
      simp only [Function.comp_apply, OrdMap.getElem?_insert, Function.update_apply]
      by_cases hid : id = other
      · simp [hid]
      · simp [hid, Ne.symm hid]
    · rfl

theorem slots_placing (hs : c.slots.Sound) (hready : c.slots.Ready stream id)
    (cursor : Option Cursor) :
    (c.placing stream id cursor).slots = c.slots.take stream id (c.place stream id).1 := by
  obtain ⟨-, hretired, hbound⟩ := place_open hs hready
  exact slots_placing_of hretired hbound cursor

theorem launch_eq_ok {cursor : Option Cursor} {d : Coordinator}
    (h : c.launch stream id cursor = .ok d) : d = c.placing stream id cursor := by
  unfold launch at h
  cases hlimit : withinPartitionLimit (c.unended + 1) with
  | error error =>
    rw [hlimit] at h
    cases h
  | ok _ =>
    rw [hlimit] at h
    exact (Except.ok.inj h).symm

theorem launchAll_induction {motive : List (PartitionId × Option Cursor) → Coordinator → Prop}
    (hplacing : ∀ {d id cursor starts}, motive ((id, cursor) :: starts) d →
      motive starts (d.placing stream id cursor))
    {starts : List (PartitionId × Option Cursor)} (h : motive starts c) :
    ∃ rest, motive rest (c.launchAll stream starts).1 ∧
      ((c.launchAll stream starts).2 = none → rest = []) := by
  induction starts generalizing c with
  | nil => exact ⟨[], h, fun _ => rfl⟩
  | cons start starts ih =>
    rw [launchAll]
    cases hlaunch : c.launch stream start.1 start.2 with
    | error error => exact ⟨_, h, fun hnone => by cases hnone⟩
    | ok d =>
      rw [launch_eq_ok hlaunch]
      exact ih (hplacing h)

/-! ## New phases -/

theorem endedAt_of_phaseEnded (hphases : c.phases stream = some phases)
    (hended : c.phaseEnded stream = true) (hplace : phases.reading[id]? = some index) :
    c.endedAt index = true := by
  simp only [phaseEnded, hphases, Bool.and_eq_true, List.all_eq_true] at hended
  exact hended.2 (id, index) ((OrdMap.mem_toList phases.reading).mpr hplace)

theorem phases_beginning (next : Nat) (phases : Phases) (starts : OrdMap PartitionId Cursor)
    (other : Nat) : (c.beginning stream next phases starts).phases other
      = if other = stream then (c.phases stream).map fun phases => phases.begin next starts
        else c.phases other :=
  phases_setPhases c stream other fun phases => phases.begin next starts

theorem slots_beginning (next : Nat) (starts : OrdMap PartitionId Cursor) :
    (c.beginning stream next phases starts).slots
      = c.slots.drop stream (fun _ => True) (phases.reading.toList.map Prod.snd).toFinset := by
  refine Slots.ext rfl (funext fun other => ?_) rfl rfl
  simp only [slots, Slots.drop, phases_beginning]
  split
  · rw [Option.map_map, Option.map_map]
    congr 1
  · rfl

theorem sound_beginning (hs : c.slots.Sound)
    (hphases : c.phases stream = some phases) (hended : c.phaseEnded stream = true)
    (hsealing : c.sealing = ∅) (next : Nat) (starts : OrdMap PartitionId Cursor) :
    (c.beginning stream next phases starts).slots.Sound := by
  rw [slots_beginning]
  refine hs.drop (fun places id index hindex _ hslot => ?_) fun index hfreed => ?_
  · obtain ⟨phases', hphases', hplaces⟩ := index_slots hindex
    cases hphases.symm.trans hphases'
    have hat := endedAt_of_phaseEnded hphases hended ((hplaces id).symm.trans hslot)
    refine ⟨endedAt_iff.mp hat, fun hpending => ?_⟩
    rw [show c.slots.pending = ∅ from hsealing] at hpending
    simp at hpending
  · obtain ⟨entry, hentry, rfl⟩ := List.mem_map.mp (List.mem_toFinset.mp hfreed)
    exact ⟨_, entry.1, index_slots_of hphases, trivial,
      (OrdMap.mem_toList phases.reading).mp hentry⟩

theorem ready_beginning (hphases : c.phases stream = some phases) (next : Nat)
    (starts : OrdMap PartitionId Cursor) (id : PartitionId) :
    (c.beginning stream next phases starts).slots.Ready stream id := by
  refine ⟨fun _ => none, ?_, fun index hnone => by cases hnone⟩
  simp only [slots, phases_beginning, hphases, if_true, Option.map_some, Phases.begin]
  simp

/-! ## Plans of the same phase -/

/-- The reads of `phases` a plan no longer names that ended, their seals taken. -/
def spent (c : Coordinator) (phases : Phases) (planned : PartitionPlan) :
    List (PartitionId × Nat) :=
  (phases.reading.toList.filter fun entry => entry.1 ∉ planned.partitions).filter fun entry =>
    c.endedAt entry.2 && entry.2 ∉ c.sealing

theorem mem_spent {entry : PartitionId × Nat} :
    entry ∈ c.spent phases planned ↔ phases.reading[entry.1]? = some entry.2 ∧
      entry.1 ∉ planned.partitions ∧ c.endedAt entry.2 = true ∧ entry.2 ∉ c.sealing := by
  have hheld : entry ∈ phases.reading.toList ↔ phases.reading[entry.1]? = some entry.2 :=
    OrdMap.mem_toList phases.reading
  simp only [spent, List.mem_filter, hheld, decide_eq_true_eq, Bool.and_eq_true]
  exact and_assoc

theorem phases_dropped (phases : Phases) (planned : PartitionPlan) (other : Nat) :
    (c.dropped stream phases planned).phases other
      = if other = stream then (c.phases stream).map fun held =>
          { held with reading :=
              ((c.spent phases planned).map Prod.fst).foldl Std.ExtTreeMap.erase held.reading }
        else c.phases other :=
  phases_setPhases c stream other fun held =>
    { held with reading :=
        ((c.spent phases planned).map Prod.fst).foldl Std.ExtTreeMap.erase held.reading }

theorem slots_dropped (phases : Phases) (planned : PartitionPlan) :
    (c.dropped stream phases planned).slots
      = c.slots.drop stream (fun id => id ∈ (c.spent phases planned).map Prod.fst)
          ((c.spent phases planned).map Prod.snd).toFinset := by
  refine Slots.ext (funext fun index => ?_) (funext fun other => ?_) rfl rfl
  · simp only [slots, dropped, Slots.drop, List.getElem?_mapIdx, Option.map_map]
    congr 1
    funext run
    simp only [Function.comp_apply]
    split <;> rfl
  · simp only [slots, Slots.drop, phases_dropped]
    split
    · rw [Option.map_map, Option.map_map]
      congr 1
      funext held id
      exact OrdMap.getElem?_foldl_erase ..
    · rfl

theorem sound_dropped (hs : c.slots.Sound)
    (hphases : c.phases stream = some phases) (planned : PartitionPlan) :
    (c.dropped stream phases planned).slots.Sound := by
  rw [slots_dropped]
  refine hs.drop (fun places id index hindex hdrops hslot => ?_) fun index hfreed => ?_
  · obtain ⟨phases', hphases', hplaces⟩ := index_slots hindex
    cases hphases.symm.trans hphases'
    obtain ⟨entry, hentry, rfl⟩ := List.mem_map.mp hdrops
    obtain ⟨hplace, -, hended, hsettled⟩ := mem_spent.mp hentry
    have hindex : entry.2 = index :=
      Option.some.inj (hplace.symm.trans ((hplaces entry.1).symm.trans hslot))
    exact ⟨endedAt_iff.mp (hindex ▸ hended), hindex ▸ hsettled⟩
  · obtain ⟨entry, hentry, rfl⟩ := List.mem_map.mp (List.mem_toFinset.mp hfreed)
    exact ⟨_, entry.1, index_slots_of hphases, List.mem_map_of_mem hentry, (mem_spent.mp hentry).1⟩

theorem mem_starts {start : PartitionId × Option Cursor} (h : start ∈ c.starts phases planned) :
    start.1 ∈ planned.partitions ∧ start.1 ∉ c.unsettled phases ∧
      resumes phases.committed[start.1]? = some start.2 := by
  obtain ⟨id, hid, hstart⟩ := List.mem_filterMap.mp h
  obtain ⟨hnamed, hsettled⟩ := List.mem_filter.mp hid
  obtain ⟨cursor, hcursor, rfl⟩ := Option.map_eq_some_iff.mp hstart
  exact ⟨hnamed, by simpa using hsettled, hcursor⟩

theorem nodup_starts (c : Coordinator) (phases : Phases) (planned : PartitionPlan) :
    ((c.starts phases planned).map Prod.fst).Nodup := by
  have hsub : List.Sublist ((c.starts phases planned).map Prod.fst) planned.partitions := by
    unfold starts
    refine List.Sublist.trans ?_
      (List.filter_sublist (p := fun id => decide (id ∉ c.unsettled phases)))
    generalize planned.partitions.filter (fun id => decide (id ∉ c.unsettled phases)) = ids
    induction ids with
    | nil => simp
    | cons id ids ih =>
      rw [List.filterMap_cons]
      cases resumes phases.committed[id]? with
      | none => exact ih.cons id
      | some cursor => simpa using ih
  exact hsub.nodup planned.distinct

theorem ready_dropped (hs : c.slots.Sound)
    (hphases : c.phases stream = some phases) (hnamed : id ∈ planned.partitions)
    (hsettled : id ∉ c.unsettled phases) :
    (c.dropped stream phases planned).slots.Ready stream id := by
  have hkept : id ∉ (c.spent phases planned).map Prod.fst := by
    rintro hmem
    obtain ⟨entry, hentry, rfl⟩ := List.mem_map.mp hmem
    exact (mem_spent.mp hentry).2.1 hnamed
  refine ⟨fun id => if id ∈ (c.spent phases planned).map Prod.fst then none
    else phases.reading[id]?, ?_, fun index hslot => ?_⟩
  · rw [slots_dropped]
    simp [Slots.drop, index_slots_of hphases]
  · beta_reduce at hslot
    rw [if_neg hkept] at hslot
    obtain ⟨ended, hheld⟩ := hs.indexed (index_slots_of hphases) hslot
    have hended : c.endedAt index = true := by
      by_contra hlive
      refine hsettled (List.mem_append_left _ (List.mem_map.mpr ⟨(id, index), ?_, rfl⟩))
      exact List.mem_filter.mpr ⟨(OrdMap.mem_toList phases.reading).mpr hslot, by simp [hlive]⟩
    refine ⟨?_, fun hsealing => hsettled (List.mem_append_right _ ?_)⟩
    · rw [slots_dropped]
      exact endedAt_iff.mp hended
    · obtain ⟨run, hrun, -, hid, -⟩ := held_slots hheld
      refine List.mem_filterMap.mpr ⟨index, ?_, by simp [hrun, hid]⟩
      rw [slots_dropped] at hsealing
      exact (Finset.mem_sort _).mpr hsealing

end Coordinator

end Rdlt.Engine
