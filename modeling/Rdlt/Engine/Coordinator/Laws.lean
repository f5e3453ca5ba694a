/-
  Rdlt.Engine.Coordinator.Laws

  What holds of every attempt, of whatever its streams plan and its commits
  meet: no partition is read twice at once, each read starts where its phase is
  recorded, state never holds entries of two phases of a stream, and sources are
  told cursors that landed, each partition's newest.
-/

import Rdlt.Engine.Coordinator.Reporting

namespace Rdlt.Engine

variable {opened : Opened} {first last : Attempt} {attempts : Nat} {events : List Event}

/-! ## Reads -/

theorem Opened.Launches.before {before after : List Happened}
    (h : opened.Launches (before ++ after)) :
    opened.Launches before := by
  intro earlier job later hsplit
  refine h earlier job (later ++ after) ?_
  rw [hsplit, List.append_assoc, List.cons_append]

/-- Reads that may be launched leave no partition with two that have not ended. -/
theorem Opened.Launches.single {trace : List Happened} (h : opened.Launches trace) :
    (Watch.after trace).Single := by
  induction trace using List.reverseRecOn with
  | nil =>
    intro place other read hplace
    cases hplace
  | append_singleton trace happened ih =>
    have hsingle := ih h.before
    rw [Watch.after_concat]
    cases happened with
    | launched launch =>
      cases launch with
      | phase stream phase starts => exact hsingle
      | read job =>
        -- Nothing else reads the partition launched.
        obtain ⟨⟨-, hunread, -⟩, -⟩ := h trace job [] rfl
        intro place other read hplace hother
        simp only [Watch.saw, Function.update_apply] at hplace hother
        split at hplace <;> split at hother
        · rename_i hsame hsame'
          rw [hsame, hsame']
        · rw [← hplace] at hother
          exact absurd hother (hunread other)
        · rw [← hother] at hplace
          exact absurd hplace (hunread place)
        · exact hsingle place other read hplace hother
    | sealed place state =>
      simp only [Watch.saw]
      split <;> exact hsingle
    | ended place =>
      intro at₁ at₂ read hat₁ hat₂
      simp only [Watch.saw, Function.update_apply] at hat₁ hat₂
      split at hat₁
      · cases hat₁
      · split at hat₂
        · cases hat₂
        · exact hsingle at₁ at₂ read hat₁ hat₂
    | landed commit => exact hsingle
    | told made => exact hsingle

/-- At every moment of an attempt no partition has two reads that have not ended, and every read
    launched takes a free place, while neither a read nor a seal of its partition is under way, and
    starts where its phase is recorded, or the phase's plan starts it. -/
theorem reads_single_and_admitted (hstart : opened.start = .ok first)
    (hrun : first.run attempts events = some last) :
    (∀ before after, last.trace = before ++ after → (Watch.after before).Single) ∧
      ∀ before job after, last.trace = before ++ .launched (.read job) :: after →
        opened.Admits before job := by
  have hkept := Attempt.kept_run hstart hrun
  refine ⟨fun before after hsplit => ?_, hkept.launches⟩
  have hlaunches := hkept.launches
  rw [hsplit] at hlaunches
  exact hlaunches.before.single

/-- An attempt as far as what happens to it goes, where all of that can happen. -/
def Opened.outcome (opened : Opened) (attempts : Nat) (events : List Event) : Option Attempt :=
  opened.start.toOption.bind fun first => first.run attempts events

theorem Opened.exists_run (opened : Opened) (attempts : Nat) (events : List Event)
    (p : Attempt → Bool) (h : (opened.outcome attempts events).any p = true) :
    ∃ first last, opened.start = .ok first ∧ first.run attempts events = some last ∧
      p last = true := by
  unfold Opened.outcome at h
  cases hstart : opened.start with
  | error error => simp [hstart, Except.toOption] at h
  | ok first =>
    cases hrun : first.run attempts events with
    | none => simp [hstart, hrun, Except.toOption] at h
    | some last => exact ⟨first, last, rfl, hrun, by simpa [hstart, hrun, Except.toOption] using h⟩

def phasePlan (ids : List PartitionId) (starts : Lib.OrdMap PartitionId Cursor)
    (distinct : ids.Nodup) (placed : ∀ id cursor, starts[id]? = some cursor → id ∈ ids) :
    PartitionPlan where
  phase := some 1
  partitions := ids
  starts
  distinct
  placed

/-- A change stream that begins its phase 1 with partition `a` at a start of its own. -/
def startedStream : Loaded :=
  { plan := { name := "s", mode := .cdc }
    planned := phasePlan ["a"] ((∅ : Lib.OrdMap PartitionId Cursor).insert "a" []) (by simp)
      (fun id cursor h => by
        rw [Lib.OrdMap.getElem?_insert] at h
        split at h
        · simp_all
        · simp at h)
    drawn := 0 }

def startedPhase : Opened where
  epoch := 0
  stored := {}
  follow := false
  streams := [startedStream]
  distinct := by simp

/-- Partition `a` is read to its end and recorded done; a plan then names `b` alone, and a commit of
    a seal of it makes room. -/
def replannedEvents : List Event :=
  [.sealed { partition := 0, segment := 1, state := .done }, .ended 0 false, .commit {},
    .replan 0 (phasePlan ["b"] ∅ (by simp) (by simp)),
    .sealed { partition := 0, segment := 2, state := .cursor [] }, .commit { relief := 1 }]

theorem reads_single_and_admitted_replanned :
    ∃ first last, startedPhase.start = .ok first ∧ first.run 1 replannedEvents = some last ∧
      last.trace.length = 10 ∧
      (∀ before after, last.trace = before ++ after → (Watch.after before).Single) ∧
      ∀ before job after, last.trace = before ++ .launched (.read job) :: after →
        startedPhase.Admits before job := by
  obtain ⟨first, last, hstart, hrun, hlength⟩ := startedPhase.exists_run 1 replannedEvents
    (fun last => last.trace.length == 10) (by decide +kernel)
  obtain ⟨hsingle, hadmits⟩ := reads_single_and_admitted hstart hrun
  exact ⟨first, last, hstart, hrun, by simpa using hlength, hsingle, hadmits⟩

/-! ## Phases -/

/-- A partition a phase starts is recorded once a commit that records the phase lands. -/
theorem Opened.recorded_of_starts (opened : Opened) (loaded : Loaded) (stream : Nat)
    (trace : List Happened) {id : PartitionId} {start : Cursor}
    (hbegun : (opened.view loaded stream trace).begun = false)
    (hstart : (opened.view loaded stream trace).starts[id]? = some start) :
    ((opened.view loaded stream trace).recorded[id]?).isSome := by
  induction trace using List.reverseRecOn with
  | nil => simp [Opened.view, PhaseView.initial] at hstart
  | append_singleton trace happened ih =>
    rw [Opened.view_concat] at hbegun hstart ⊢
    cases happened with
    | launched launch =>
      cases launch with
      | phase other phase starts =>
        simp only [PhaseView.saw] at hbegun hstart ⊢
        split at hbegun
        · cases hbegun
        · rename_i hother
          rw [if_neg hother] at hstart ⊢
          exact ih hbegun hstart
      | read job =>
        simp only [PhaseView.saw] at hbegun hstart ⊢
        split at hbegun
        all_goals
          rename_i hstream
          simp only [hstream, if_true, if_false] at hstart ⊢
          exact ih hbegun hstart
    | sealed place state => exact ih hbegun hstart
    | ended place => exact ih hbegun hstart
    | told made => exact ih hbegun hstart
    | landed commit =>
      simp only [PhaseView.saw, PhaseView.landed] at hstart ⊢
      rw [Lib.OrdMap.getElem?_foldl_insert, Option.isSome_or, Bool.or_eq_true]
      refine .inr ?_
      unfold PhaseView.base
      split
      · simp [hstart]
      · rename_i hfirst
        exact ih (by simpa using hfirst) hstart

/-- State holds, of a stream that tracks its partitions, the entries of the phase it records and no
    others: those of the phase's starts and of its own reads, those of done partitions apart that
    went to make room. -/
theorem stored_phase_unmixed (hstart : opened.start = .ok first)
    (hrun : first.run attempts events = some last) {stream : Nat} {loaded : Loaded}
    (hloaded : opened.streams[stream]? = some loaded)
    (htracked : loaded.plan.tracked opened.follow = true) :
    (opened.view loaded stream last.trace).Recorded last.stored loaded.plan.name ∧
      ∀ id start, (opened.view loaded stream last.trace).begun = false →
        (opened.view loaded stream last.trace).starts[id]? = some start →
          (last.stored.position loaded.plan.name id).isSome ∨
            id ∈ (opened.view loaded stream last.trace).forgotten ∧
              (opened.view loaded stream last.trace).recorded[id]? = some .done := by
  have hrecorded := (Attempt.kept_run hstart hrun).recorded stream loaded hloaded htracked
  refine ⟨hrecorded, fun id start hbegun hid => ?_⟩
  by_cases hforgotten : id ∈ (opened.view loaded stream last.trace).forgotten
  · exact .inr ⟨hforgotten, hrecorded.forgotten id hforgotten⟩
  · rw [hrecorded.positions, PhaseView.held, if_neg hforgotten]
    exact .inl (opened.recorded_of_starts loaded stream last.trace hbegun hid)

theorem stored_phase_unmixed_replanned :
    ∃ first last, startedPhase.start = .ok first ∧ first.run 1 replannedEvents = some last ∧
      (startedPhase.view startedStream 0 last.trace).Recorded last.stored "s" ∧
      ∀ id start, (startedPhase.view startedStream 0 last.trace).begun = false →
        (startedPhase.view startedStream 0 last.trace).starts[id]? = some start →
          (last.stored.position "s" id).isSome ∨
            id ∈ (startedPhase.view startedStream 0 last.trace).forgotten ∧
              (startedPhase.view startedStream 0 last.trace).recorded[id]? = some .done := by
  obtain ⟨first, last, hstart, hrun, -⟩ := startedPhase.exists_run 1 replannedEvents
    (fun last => !last.failed) (by decide +kernel)
  have hloaded : startedPhase.streams[0]? = some startedStream := rfl
  obtain ⟨hrecorded, hstarts⟩ := stored_phase_unmixed hstart hrun hloaded rfl
  exact ⟨first, last, hstart, hrun, hrecorded, hstarts⟩

/-- A partition the phase state records was planned to start, and state holds no entry of it: it was
    done, and went to make room. -/
theorem forgotten_start_unrecorded :
    ∃ first last, startedPhase.start = .ok first ∧ first.run 1 replannedEvents = some last ∧
      (startedPhase.view startedStream 0 last.trace).starts["a"]? = some [] ∧
      (startedPhase.view startedStream 0 last.trace).begun = false ∧
      last.stored.phase "s" = 1 ∧ last.stored.position "s" "a" = none := by
  obtain ⟨first, last, hstart, hrun, hlast⟩ := startedPhase.exists_run 1 replannedEvents
    (fun last => decide ((startedPhase.view startedStream 0 last.trace).starts["a"]? = some [] ∧
      (startedPhase.view startedStream 0 last.trace).begun = false ∧
      last.stored.phase "s" = 1 ∧ last.stored.position "s" "a" = none)) (by decide +kernel)
  exact ⟨first, last, hstart, hrun, of_decide_eq_true hlast⟩

/-! ## Reports -/

/-- Every cursor a source is told is that of the newest commit that landed and reports its
    partition, which records it, or records the partition done where it last stood at that cursor;
    what a partition is told only grows newer; and the newest cursor of each partition is told or
    still owed, unless the partition is recorded done or the attempt failed. -/
theorem told_only_landed (hstart : opened.start = .ok first)
    (hrun : first.run attempts events = some last) :
    (∀ before made after, last.trace = before ++ .told made :: after →
      ∀ id cursor, (id, cursor) ∈ made.cursors → ∃ index done commit read,
        newest before made.stream id = some (index, cursor, done) ∧
        before[index]? = some (.landed commit) ∧
        read.stream = made.stream ∧
        read.id = id ∧
        (read, cursor) ∈ commit.reported) ∧
    (∀ before commit after, last.trace = before ++ .landed commit :: after →
      ∀ read cursor, (read, cursor) ∈ commit.reported →
        (read, .cursor cursor) ∈ commit.positions ∨
          (read, .done) ∈ commit.positions ∧
            lastRead before read.place = some (read.stream, read.id) ∧
            lastStood before read.place = some cursor) ∧
    (∀ before made between later after,
      last.trace = before ++ .told made :: (between ++ .told later :: after) →
      later.stream = made.stream → ∀ id cursor cursor', (id, cursor) ∈ made.cursors →
        (id, cursor') ∈ later.cursors → ∃ index done index' done',
          index ≤ index' ∧
          newest before made.stream id = some (index, cursor, done) ∧
          newest (before ++ .told made :: between) made.stream id = some (index', cursor', done')) ∧
    (last.failed = false → ∀ stream id index cursor done,
      newest last.trace stream id = some (index, cursor, done) →
        last.coordinator.owed.tells stream id = some (cursor, done) ∨
          ToldSince last.trace stream id index (cursor, done) ∨ done = true) := by
  have htells := Attempt.tells_run hstart hrun
  have htold : ∀ before made after, last.trace = before ++ .told made :: after →
      ∀ id cursor, (id, cursor) ∈ made.cursors →
        ∃ index done, newest before made.stream id = some (index, cursor, done) :=
    fun before made after hsplit => htells.truthful before (.told made) after hsplit
  refine ⟨?_, fun before commit after hsplit =>
    htells.truthful before (.landed commit) after hsplit,
    ?_, fun hrunning stream id index cursor done hnewest => (htells.owes hrunning).kept hnewest⟩
  · intro before made after hsplit id cursor hcursor
    obtain ⟨index, done, hnewest⟩ := htold before made after hsplit id cursor hcursor
    obtain ⟨commit, read, hat, hstream, hid, hreported, -⟩ := landed_of_newest hnewest
    exact ⟨index, done, commit, read, hnewest, hat, hstream, hid, hreported⟩
  · intro before made between later after hsplit hstream id cursor cursor' hcursor hcursor'
    obtain ⟨index, done, hnewest⟩ := htold before made _ hsplit id cursor hcursor
    have hlater : last.trace = (before ++ .told made :: between) ++ .told later :: after := by
      rw [hsplit]
      simp
    obtain ⟨index', done', hnewest'⟩ := htold _ later after hlater id cursor' hcursor'
    rw [hstream] at hnewest'
    obtain ⟨grown, told, hgrown, hle⟩ := newest_mono hnewest (.told made :: between)
    rw [hnewest', Option.some.injEq, Prod.mk.injEq] at hgrown
    exact ⟨index, done, index', done', hgrown.1 ▸ hle, hnewest, hnewest'⟩

/-- A report fails, and the next carries what was owed of it and more. -/
def owedEvents : List Event :=
  [.sealed { partition := 0, segment := 1, state := .cursor [] },
    .commit { replies := fun _ => .failed false },
    .sealed { partition := 0, segment := 2, state := .cursor [] }, .commit {}]

theorem told_only_landed_owed :
    ∃ first last, startedPhase.start = .ok first ∧ first.run 3 owedEvents = some last ∧
      last.trace.length = 8 ∧ (∀ before made after, last.trace = before ++ .told made :: after →
        ∀ id cursor, (id, cursor) ∈ made.cursors → ∃ index done commit read,
          newest before made.stream id = some (index, cursor, done) ∧
          before[index]? = some (.landed commit) ∧ read.stream = made.stream ∧ read.id = id ∧
          (read, cursor) ∈ commit.reported) ∧ ∀ stream id index cursor done,
        newest last.trace stream id = some (index, cursor, done) →
          last.coordinator.owed.tells stream id = some (cursor, done) ∨
            ToldSince last.trace stream id index (cursor, done) ∨ done = true := by
  obtain ⟨first, last, hstart, hrun, hlast⟩ := startedPhase.exists_run 3 owedEvents
    (fun last => last.trace.length == 8 && !last.failed) (by decide +kernel)
  obtain ⟨hlength, hrunning⟩ := Bool.and_eq_true_iff.mp hlast
  obtain ⟨htold, -, -, howed⟩ := told_only_landed hstart hrun
  exact ⟨first, last, hstart, hrun, by simpa using hlength, htold, howed (by simpa using hrunning)⟩

end Rdlt.Engine
