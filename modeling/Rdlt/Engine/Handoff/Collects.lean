/-
  Rdlt.Engine.Handoff.Collects

  What a commit collects is what was handed over since the one before: each
  partition at its last position, the segments with rows, and what they count,
  each for the stream whose read sealed it.
-/

import Rdlt.Engine.Handoff.Steps

namespace Rdlt.Engine

/-! ## What was handed over -/

variable (taken : List (Nat × Seal)) (trace later : List Handed)

def Handed.handover : Handed → Option (Nat × Seal)
  | .taken stream handed => some (stream, handed)
  | _ => none

/-- The seals handed over, in order, each with the stream it is of. -/
def handovers (trace : List Handed) : List (Nat × Seal) := trace.filterMap Handed.handover

def Handed.commit : Handed → Option Collected
  | .collected commit => some commit
  | _ => none

def commits (trace : List Handed) : List Collected := trace.filterMap Handed.commit

/-- What was handed over and waits for a commit, once `passed` passed. -/
def Handed.since (waiting : List (Nat × Seal)) : Handed → List (Nat × Seal)
  | .taken stream handed => waiting ++ [(stream, handed)]
  | .collected _ => []
  | _ => waiting

/-- What was handed over since the last commit collected. -/
def recent (trace : List Handed) : List (Nat × Seal) := trace.foldl Handed.since []

@[simp] theorem handovers_append :
    handovers (trace ++ later) = handovers trace ++ handovers later :=
  List.filterMap_append

@[simp] theorem commits_append : commits (trace ++ later) = commits trace ++ commits later :=
  List.filterMap_append

@[simp] theorem recent_concat (trace : List Handed) (passed : Handed) :
    recent (trace ++ [passed]) = passed.since (recent trace) := by
  simp [recent]

theorem recent_sublist (trace : List Handed) : (recent trace).Sublist (handovers trace) := by
  induction trace using List.reverseRecOn with
  | nil => exact .slnil
  | append_singleton trace passed ih =>
    rw [recent_concat, handovers_append]
    cases passed with
    | taken stream handed => exact ih.append (List.Sublist.refl _)
    | collected commit => exact List.nil_sublist _
    | _ => exact ih.trans (List.sublist_append_left ..)

/-! ## What a commit collects -/

def pushed (taken : List (Nat × Seal)) : WaitingSeals :=
  taken.foldl (fun waiting entry => waiting.push entry.2) {}

/-- Whether a seal that waits for a commit counts anything of its stream's. -/
def Seal.counted (handed : Seal) : Bool := !handed.movesOnly || handed.counts.shred ≠ {}

def tally (streams : Lib.OrdMap Nat StreamReport) (stream : Nat) (counts : Counts) :
    Lib.OrdMap Nat StreamReport :=
  let report := streams.getD stream {}
  streams.insert stream
    { commits := if counts.rows > 0 then 1 else report.commits
      counts := report.counts.add counts }

def tallied (taken : List (Nat × Seal)) : Lib.OrdMap Nat StreamReport :=
  (taken.filter (·.2.counted)).foldl (fun streams entry => tally streams entry.1 entry.2.counts) ∅

/-- The commit is that of the seals `taken`. -/
structure Collected.Of (commit : Collected) (taken : List (Nat × Seal)) : Prop where
  segments : commit.segments = Coordinator.segments (pushed taken).counted
  positions : commit.positions = (pushed taken).standing.map fun _ standing => standing.position
  streams : commit.streams = tallied taken

theorem pushed_concat (entry : Nat × Seal) :
    pushed (taken ++ [entry]) = (pushed taken).push entry.2 := by
  simp [pushed]

theorem counted_pushed : (pushed taken).counted = (taken.filter (·.2.counted)).map fun entry =>
    { partition := entry.2.partition, segment := entry.2.segment, counts := entry.2.counts } := by
  induction taken using List.reverseRecOn with
  | nil => rfl
  | append_singleton taken entry ih =>
    rw [pushed_concat, List.filter_append, List.map_append, ← ih]
    simp only [WaitingSeals.push]
    by_cases hcounted : entry.2.counted = true
    · rw [if_pos (by simpa [Seal.counted] using hcounted)]
      simp [hcounted]
    · rw [if_neg (by simpa [Seal.counted] using hcounted)]
      simp [hcounted]

theorem collected_of {c : Coordinator} {taken : List (Nat × Seal)}
    (hwaiting : c.waiting = pushed taken)
    (hstreams : ∀ entry ∈ taken,
      (c.partitions[entry.2.partition]?).elim 0 PartitionRun.stream = entry.1) :
    c.collect.1.Of taken where
  segments := by rw [← hwaiting]; rfl
  positions := by rw [← hwaiting]; rfl
  streams := by
    show c.counts c.waiting.counted = tallied taken
    rw [hwaiting, counted_pushed, tallied, Coordinator.counts, List.foldl_map]
    refine List.foldl_ext _ _ _ fun streams entry hentry => ?_
    rw [hstreams entry (List.mem_filter.mp hentry).1]
    rfl

def History (trace : List Handed) : Prop :=
  ∀ before commit after, trace = before ++ .collected commit :: after → commit.Of (recent before)

/-- What the coordinator keeps, and each commit it collected, is of what was handed over. -/
structure Handoff.Collects (h : Handoff) : Prop where
  waiting : h.coordinator.waiting = pushed (recent h.trace)
  sealing : ∀ entry ∈ recent h.trace, entry.2.partition ∈ h.coordinator.sealing
  streams : ∀ entry ∈ recent h.trace, h.streamAt entry.2.partition = entry.1
  history : History h.trace

theorem History.of_append {trace later : List Handed} (h : History (trace ++ later)) :
    History trace := by
  rintro before commit after rfl
  exact h before commit (after ++ later) (by simp)

theorem History.concat {trace : List Handed} (h : History trace) {passed : Handed}
    (hpassed : passed.commit = none) : History (trace ++ [passed]) := by
  intro before commit after heq
  rcases after.eq_nil_or_concat with rfl | ⟨rest, last, rfl⟩
  · obtain rfl := List.head_eq_of_cons_eq (List.append_inj_right' heq rfl)
    cases hpassed
  · rw [List.concat_eq_append, ← List.cons_append, ← List.append_assoc] at heq
    exact h before commit rest (List.append_inj_left' heq rfl)

theorem History.collected {trace : List Handed} (h : History trace) {commit : Collected}
    (hcommit : commit.Of (recent trace)) : History (trace ++ [.collected commit]) := by
  intro before other after heq
  rcases after.eq_nil_or_concat with rfl | ⟨rest, last, rfl⟩
  · obtain rfl := List.append_inj_left' heq rfl
    cases List.head_eq_of_cons_eq (List.append_inj_right' heq rfl)
    exact hcommit
  · rw [List.concat_eq_append, ← List.cons_append, ← List.append_assoc] at heq
    exact h before other rest (List.append_inj_left' heq rfl)

/-- What passes besides seals handed over and commits. -/
def Handed.Plain (passed : Handed) : Prop := passed.handover = none ∧ passed.commit = none

theorem Handed.Plain.since {passed : Handed} (h : passed.Plain) (waiting : List (Nat × Seal)) :
    passed.since waiting = waiting := by
  cases passed with
  | taken => cases h.1
  | collected => cases h.2
  | _ => rfl

theorem recent_append {trace : List Handed} {passed : List Handed}
    (h : ∀ entry ∈ passed, entry.Plain) : recent (trace ++ passed) = recent trace := by
  induction passed using List.reverseRecOn with
  | nil => rw [List.append_nil]
  | append_singleton passed last ih =>
    rw [← List.append_assoc, recent_concat, (h last (by simp)).since]
    exact ih fun entry hentry => h entry (List.mem_append_left _ hentry)

theorem History.append {trace passed : List Handed} (h : History trace)
    (hplain : ∀ entry ∈ passed, entry.Plain) : History (trace ++ passed) := by
  induction passed using List.reverseRecOn with
  | nil => rwa [List.append_nil]
  | append_singleton passed last ih =>
    rw [← List.append_assoc]
    exact (ih fun entry hentry => hplain entry (List.mem_append_left _ hentry)).concat
      (hplain last (by simp)).2

namespace Handoff

theorem Collects.keep {h h' : Handoff} (hcollects : h.Collects) (hkeeps : Keeps h h')
    {passed : List Handed} (htrace : h'.trace = h.trace ++ passed)
    (hplain : ∀ entry ∈ passed, entry.Plain) : h'.Collects where
  waiting := by rw [hkeeps.waiting, htrace, recent_append hplain, hcollects.waiting]
  sealing := by
    rw [hkeeps.sealing, htrace, recent_append hplain]
    exact hcollects.sealing
  streams := by
    rw [htrace, recent_append hplain]
    intro entry hentry
    rw [hkeeps.streams _ (hcollects.sealing entry hentry)]
    exact hcollects.streams entry hentry
  history := by
    rw [htrace]
    exact hcollects.history.append hplain

theorem Collects.step {h h' : Handoff} (hcollects : h.Collects) (hpasses : Passes h h') :
    h'.Collects := by
  cases hpasses with
  | quiet trace keeps delivered =>
    exact hcollects.keep keeps (trace.trans (List.append_nil _).symm) (by simp)
  | sent stream reported waited earlier trace keeps fresh light before after others =>
    refine hcollects.keep keeps trace fun entry hentry => ?_
    rcases List.mem_cons.mp hentry with rfl | hentry
    · exact ⟨rfl, rfl⟩
    · obtain ⟨dropped, -, rfl⟩ := Option.map_eq_some_iff.mp (Option.mem_toList.mp hentry)
      exact ⟨rfl, rfl⟩
  | abandoned place segment trace keeps fresh delivered =>
    refine hcollects.keep keeps trace fun entry hentry => ?_
    rw [List.mem_singleton.mp hentry]
    exact ⟨rfl, rfl⟩
  | taken handed trace waiting sealing streams delivered =>
    have hrecent : recent h'.trace = recent h.trace ++ [(h.streamAt handed.partition, handed)] := by
      rw [trace, recent_concat]
      rfl
    refine ⟨?_, fun entry hentry => ?_, fun entry hentry => ?_, ?_⟩
    · rw [waiting, hrecent, pushed_concat, hcollects.waiting]
    · rw [sealing]
      rcases List.mem_append.mp (hrecent ▸ hentry) with hentry | hentry
      · exact Finset.mem_insert_of_mem (hcollects.sealing entry hentry)
      · rw [List.mem_singleton.mp hentry]
        exact Finset.mem_insert_self ..
    · rw [streams]
      rcases List.mem_append.mp (hrecent ▸ hentry) with hentry | hentry
      · exact hcollects.streams entry hentry
      · rw [List.mem_singleton.mp hentry]
    · rw [trace]
      exact hcollects.history.concat rfl
  | collected trace waiting sealing delivered =>
    have hrecent : recent h'.trace = [] := by
      rw [trace, recent_concat]
      rfl
    refine ⟨?_, ?_, ?_, ?_⟩
    · rw [waiting, hrecent]
      rfl
    · rw [hrecent]
      exact nofun
    · rw [hrecent]
      exact nofun
    · rw [trace]
      exact hcollects.history.collected (collected_of hcollects.waiting hcollects.streams)

end Handoff

end Rdlt.Engine
