/-
  Rdlt.Engine.Coordinator.Reporting

  What the source is told. Of each partition the newest commit that landed and
  reports it says which cursor its source is told, and whether the partition is
  recorded done.
-/

import Rdlt.Engine.Coordinator.Runs

namespace Rdlt.Engine

open Lib

variable {opened : Opened} {trace : List Happened} {c : Coordinator} {stream : Nat}
  {id : PartitionId} {told : Cursor × Bool} {cursor : Cursor} {index : Nat} {more : List Happened}

/-! ## What commits report -/

/-- What a commit that landed tells of partition `id` of `stream`: the cursor its source is told,
    and whether the partition is recorded done. -/
def Landed.tells (commit : Landed) (stream : Nat) (id : PartitionId) : Option (Cursor × Bool) :=
  lastSome
    (fun report : ReadAt × Cursor =>
      if report.1.stream = stream ∧ report.1.id = id then
        some (report.2, decide ((report.1, PartitionState.done) ∈ commit.positions))
      else none)
    commit.reported

def Happened.tells (stream : Nat) (id : PartitionId) : Happened → Option (Cursor × Bool)
  | .landed commit => commit.tells stream id
  | _ => none

def newest (trace : List Happened) (stream : Nat) (id : PartitionId) :
    Option (Nat × Cursor × Bool) :=
  lastSome (fun entry : Happened × Nat => (entry.1.tells stream id).map (entry.2, ·)) trace.zipIdx

theorem newest_concat (trace : List Happened) (happened : Happened) (stream : Nat)
    (id : PartitionId) : newest (trace ++ [happened]) stream id
      = ((happened.tells stream id).map (trace.length, ·)).or (newest trace stream id) := by
  rw [newest, List.zipIdx_append, lastSome_append]
  simp [newest, lastSome_cons]

theorem newest_append (h : ∀ happened ∈ more, happened.tells stream id = none)
    (trace : List Happened) : newest (trace ++ more) stream id = newest trace stream id := by
  induction more using List.reverseRecOn with
  | nil => rw [List.append_nil]
  | append_singleton more happened ih =>
    rw [← List.append_assoc, newest_concat, h happened (by simp),
      ih fun other hother => h other (List.mem_append_left _ hother)]
    rfl

/-- What a partition was told last is of a commit that landed and reports it. -/
theorem landed_of_newest {done : Bool} (h : newest trace stream id = some (index, cursor, done)) :
    ∃ commit read, (trace)[index]? = some (.landed commit) ∧ read.stream = stream ∧ read.id = id ∧
      (read, cursor) ∈ commit.reported ∧ done = decide ((read, .done) ∈ commit.positions) := by
  obtain ⟨entry, hentry, hsome⟩ := exists_of_lastSome h
  obtain ⟨told, htold, heq⟩ := Option.map_eq_some_iff.mp hsome
  obtain ⟨rfl, rfl⟩ := Prod.mk.inj heq
  have hat := List.mem_zipIdx_iff_getElem?.mp hentry
  cases hhappened : entry.1 with
  | landed commit =>
    rw [hhappened] at htold hat
    obtain ⟨report, hreport, hreads⟩ := exists_of_lastSome htold
    split at hreads
    · rename_i hread
      obtain ⟨hcursor, hdone⟩ := Prod.mk.inj (Option.some.inj hreads)
      exact ⟨commit, report.1, hat, hread.1, hread.2, hcursor ▸ hreport, hdone.symm⟩
    · cases hreads
  | launched _ => simp [hhappened, Happened.tells] at htold
  | sealed _ _ => simp [hhappened, Happened.tells] at htold
  | ended _ => simp [hhappened, Happened.tells] at htold
  | told _ => simp [hhappened, Happened.tells] at htold

theorem newest_mono {before : List Happened} (h : newest before stream id = some (index, told))
    (after : List Happened) :
    ∃ later told', newest (before ++ after) stream id = some (later, told') ∧ index ≤ later := by
  induction after using List.reverseRecOn with
  | nil => exact ⟨index, told, by rw [List.append_nil]; exact h, le_refl _⟩
  | append_singleton after happened ih =>
    obtain ⟨later, told', hlater, hle⟩ := ih
    rw [← List.append_assoc, newest_concat, hlater]
    cases happened.tells stream id with
    | none => exact ⟨later, told', rfl, hle⟩
    | some newer =>
      refine ⟨_, newer, rfl, hle.trans ?_⟩
      obtain ⟨entry, hentry, hsome⟩ := exists_of_lastSome hlater
      obtain ⟨told, -, heq⟩ := Option.map_eq_some_iff.mp hsome
      have hbound := List.snd_lt_of_mem_zipIdx hentry
      have hindex : entry.2 = later := congrArg Prod.fst heq
      omega

/-! ## What is owed -/

def Owed.tells (owed : Owed) (stream : Nat) (id : PartitionId) : Option (Cursor × Bool) :=
  ((owed[stream]?).bind fun partitions => partitions[id]?).map fun owing =>
    (owing.cursor, owing.done)

theorem Owed.tells_owe (owed : Owed) (other : Nat) (partition : PartitionId) (cursor : Cursor)
    (state : PartitionState) : (owed.owe other partition cursor state).tells stream id
      = if other = stream ∧ partition = id then some (cursor, decide (state = .done))
        else owed.tells stream id := by
  unfold Owed.owe Owed.tells
  simp only [OrdMap.getElem?_insert]
  by_cases hstream : other = stream
  · subst hstream
    simp only [if_true, Option.bind_some, OrdMap.getElem?_insert, true_and]
    by_cases hid : partition = id
    · simp [hid]
    · simp only [hid, if_false, Std.ExtTreeMap.getD_eq_getD_getElem?]
      cases owed[other]? <;> simp
  · simp [hstream]

namespace Coordinator

def tellsAt (c : Coordinator) (positions : OrdMap Nat PartitionState) (stream : Nat)
    (id : PartitionId) (entry : Nat × Cursor) : Option (Cursor × Bool) :=
  (c.partitions[entry.1]?).bind fun run =>
    (positions[entry.1]?).bind fun state =>
      if run.stream = stream ∧ run.id = id then some (entry.2, decide (state = .done)) else none

theorem tells_owing (c : Coordinator) (reported : OrdMap Nat Cursor)
    (positions : OrdMap Nat PartitionState) : (c.owing reported positions).tells stream id
      = (lastSome (c.tellsAt positions stream id) reported.toList).or (c.owed.tells stream id) := by
  unfold owing
  induction reported.toList using List.reverseRecOn with
  | nil => rfl
  | append_singleton entries entry ih =>
    rw [List.foldl_append, List.foldl_cons, List.foldl_nil, lastSome_concat, tellsAt]
    cases c.partitions[entry.1]? with
    | none => exact ih
    | some run =>
      cases positions[entry.1]? with
      | none => exact ih
      | some state =>
        simp only [Option.bind_some]
        rw [Owed.tells_owe, ih]
        split <;> rfl

end Coordinator

/-! ## Reports -/

section Report

variable {replies : Nat → Reply} {turn : Turn} {attempts : Nat}
  {owing : List (Nat × OrdMap PartitionId Owing)}

def Report.carrying (stream : Nat) (owed : OrdMap PartitionId Owing) (reply : Reply) :
    Report where
  stream
  cursors := owed.toList.map fun entry => (entry.1, entry.2.cursor)
  reply

theorem report_reports {made : Report} (h : made ∈ (report replies turn attempts owing).reports) :
    ∃ owed, (made.stream, owed) ∈ owing ∧ made = .carrying made.stream owed made.reply := by
  induction owing with
  | nil => exact absurd h List.not_mem_nil
  | cons entry rest ih =>
    obtain ⟨other, owed⟩ := entry
    have hcases : made = .carrying other owed (replies other) ∨
        made ∈ (report replies turn attempts rest).reports := by
      unfold report at h
      cases hreply : replies other with
      | told =>
        rw [hreply] at h
        exact List.mem_cons.mp h
      | failed unsent =>
        rw [hreply] at h
        exact List.mem_cons.mp h
      | cancelled =>
        rw [hreply] at h
        exact .inl (List.mem_singleton.mp h)
    rcases hcases with rfl | hmade
    · exact ⟨owed, List.mem_cons_self, rfl⟩
    · obtain ⟨held, hheld, hcarrying⟩ := ih hmade
      exact ⟨held, List.mem_cons_of_mem _ hheld, hcarrying⟩

/-- What is owed a stream after reports was owed it before, a failed report since. -/
theorem report_owed {kept : OrdMap PartitionId Owing}
    (h : (report replies turn attempts owing).owed[stream]? = some kept) :
    ∃ owed unsent, (stream, owed) ∈ owing ∧
      kept = owed.filterMap fun _ owing => owing.failedReport unsent turn attempts := by
  induction owing with
  | nil => simp [report] at h
  | cons entry rest ih =>
    obtain ⟨other, owed⟩ := entry
    unfold report at h
    cases hreply : replies other with
    | told =>
      rw [hreply] at h
      obtain ⟨held, unsent, hheld, hkept⟩ := ih h
      exact ⟨held, unsent, List.mem_cons_of_mem _ hheld, hkept⟩
    | cancelled =>
      rw [hreply] at h
      simp at h
    | failed unsent =>
      rw [hreply] at h
      dsimp only at h
      split at h
      · obtain ⟨held, unsent, hheld, hkept⟩ := ih h
        exact ⟨held, unsent, List.mem_cons_of_mem _ hheld, hkept⟩
      · rw [OrdMap.getElem?_insert] at h
        split at h
        · rename_i hsame
          exact ⟨owed, unsent, hsame ▸ List.mem_cons_self, (Option.some.inj h).symm⟩
        · obtain ⟨held, unsent, hheld, hkept⟩ := ih h
          exact ⟨held, unsent, List.mem_cons_of_mem _ hheld, hkept⟩

/-- Where no report ended the attempt, each stream was told what it is owed, or its report failed
    and what was not given up stays owed. -/
theorem report_kept (hended : (report replies turn attempts owing).ended = false)
    (hnodup : (owing.map Prod.fst).Nodup) {owed : OrdMap PartitionId Owing}
    (h : (stream, owed) ∈ owing) :
    .carrying stream owed .told ∈ (report replies turn attempts owing).reports ∨
      ∃ unsent, ∀ id : PartitionId,
        ((report replies turn attempts owing).owed[stream]?).bind
        (fun partitions => partitions[id]?)
          = (owed[id]?).bind fun owing => owing.failedReport unsent turn attempts := by
  induction owing with
  | nil => exact absurd h List.not_mem_nil
  | cons entry rest ih =>
    obtain ⟨other, first⟩ := entry
    obtain ⟨hfresh, hnodup⟩ := List.nodup_cons.mp hnodup
    unfold report at hended ⊢
    cases hreply : replies other with
    | cancelled =>
      rw [hreply] at hended
      cases hended
    | told =>
      rw [hreply] at hended
      dsimp only at hended ⊢
      rcases List.mem_cons.mp h with heq | hrest
      · obtain ⟨rfl, rfl⟩ := Prod.mk.inj heq
        exact .inl (List.mem_cons_self)
      · exact (ih hended hnodup hrest).imp_left (List.mem_cons_of_mem _)
    | failed unsent =>
      rw [hreply] at hended
      dsimp only at hended ⊢
      rcases List.mem_cons.mp h with heq | hrest
      · obtain ⟨rfl, rfl⟩ := Prod.mk.inj heq
        refine .inr ⟨unsent, fun id => ?_⟩
        rw [← OrdMap.getElem?_filterMap owed
          (fun _ owing => owing.failedReport unsent turn attempts)]
        split
        · rename_i hempty
          -- Nothing is owed the stream any more: no other report is to it.
          have hnone : (report replies turn attempts rest).owed[stream]? = none := by
            refine Option.eq_none_iff_forall_ne_some.mpr fun kept hkept => ?_
            obtain ⟨held, -, hheld, -⟩ := report_owed hkept
            exact hfresh (List.mem_map.mpr ⟨_, hheld, rfl⟩)
          rw [hnone, Std.ExtTreeMap.isEmpty_iff.mp hempty]
          simp
        · rw [OrdMap.getElem?_insert, if_pos rfl]
          rfl
      · have hother : other ≠ stream := by
          rintro rfl
          exact hfresh (List.mem_map.mpr ⟨_, hrest, rfl⟩)
        refine (ih (Bool.or_eq_false_iff.mp hended).1 hnodup hrest).imp
          (List.mem_cons_of_mem _) fun ⟨unsent, hkept⟩ => ⟨unsent, fun id => ?_⟩
        rw [← hkept]
        split
        · rfl
        · rw [OrdMap.getElem?_insert, if_neg hother]

theorem Owing.failedReport_eq_some {owed kept : Owing} {unsent : Bool}
    (h : owed.failedReport unsent turn attempts = some kept) :
    kept.cursor = owed.cursor ∧ kept.done = owed.done := by
  unfold Owing.failedReport at h
  dsimp only at h
  split at h
  · cases h
  · rw [← Option.some.inj h]
    exact ⟨rfl, rfl⟩

theorem Owing.done_of_failedReport {owed : Owing} {unsent : Bool}
    (h : owed.failedReport unsent turn attempts = none) : owed.done = true := by
  unfold Owing.failedReport at h
  dsimp only at h
  split at h
  · rename_i hgiven
    exact hgiven.1
  · cases h

variable {owed : Owed}

theorem tells_of_made {made : Report}
    (h : made ∈ (report replies turn attempts owed.toList).reports)
    (hcursor : (id, cursor) ∈ made.cursors) :
    ∃ done, owed.tells made.stream id = some (cursor, done) := by
  obtain ⟨partitions, hpartitions, hcarrying⟩ := report_reports h
  have hstream : owed[made.stream]? = some partitions := (OrdMap.mem_toList owed).mp hpartitions
  rw [hcarrying] at hcursor
  obtain ⟨entry, hentry, heq⟩ := List.mem_map.mp hcursor
  obtain ⟨rfl, rfl⟩ := Prod.mk.inj heq
  have hid : partitions[entry.1]? = some entry.2 := (OrdMap.mem_toList partitions).mp hentry
  exact ⟨entry.2.done, by simp [Owed.tells, hstream, hid]⟩

theorem tells_of_report
    (h : (report replies turn attempts owed.toList).owed.tells stream id = some told) :
    owed.tells stream id = some told := by
  obtain ⟨kept, hkept, htold⟩ := Option.map_eq_some_iff.mp h
  obtain ⟨partitions, hpartitions, hid⟩ := Option.bind_eq_some_iff.mp hkept
  obtain ⟨held, unsent, hheld, rfl⟩ := report_owed hpartitions
  rw [OrdMap.getElem?_filterMap] at hid
  obtain ⟨owing, howing, hfailed⟩ := Option.bind_eq_some_iff.mp hid
  obtain ⟨hcursor, hdone⟩ := Owing.failedReport_eq_some hfailed
  have hstream : owed[stream]? = some held := (OrdMap.mem_toList owed).mp hheld
  simp [Owed.tells, hstream, howing, ← htold, hcursor, hdone]

/-- What was owed before reports that did not end the attempt is still, or was told, or is of a
    partition recorded done. -/
theorem tells_report (hended : (report replies turn attempts owed.toList).ended = false)
    (h : owed.tells stream id = some told) :
    (report replies turn attempts owed.toList).owed.tells stream id = some told ∨
      (∃ made ∈ (report replies turn attempts owed.toList).reports, made.stream = stream ∧
        made.reply = .told ∧ (id, told.1) ∈ made.cursors) ∨ told.2 = true := by
  obtain ⟨owing, howing, rfl⟩ := Option.map_eq_some_iff.mp h
  obtain ⟨partitions, hpartitions, hid⟩ := Option.bind_eq_some_iff.mp howing
  have hmem : (stream, partitions) ∈ owed.toList := (OrdMap.mem_toList owed).mpr hpartitions
  have hnodup : (owed.toList.map Prod.fst).Nodup := by
    rw [Std.ExtTreeMap.map_fst_toList_eq_keys]
    exact Std.ExtTreeMap.nodup_keys
  rcases report_kept hended hnodup hmem with hmade | ⟨unsent, hkept⟩
  · refine .inr (.inl ⟨_, hmade, rfl, rfl, ?_⟩)
    exact List.mem_map.mpr ⟨(id, owing), (OrdMap.mem_toList partitions).mpr hid, rfl⟩
  · have hid' := hkept id
    rw [hid, Option.bind_some] at hid'
    cases hfailed : owing.failedReport unsent turn attempts with
    | none => exact .inr (.inr (Owing.done_of_failedReport hfailed))
    | some kept =>
      rw [hfailed] at hid'
      obtain ⟨hcursor, hdone⟩ := Owing.failedReport_eq_some hfailed
      exact .inl (by rw [Owed.tells, hid', Option.map_some, hcursor, hdone])

end Report

/-! ## What an attempt tells -/

/-- What happens tells the source only what landed: a report carries what the newest commit that
    reports a partition tells, and a commit reports cursors it records, or where a read it records
    done last stood. -/
def Happened.Truthful (before : List Happened) : Happened → Prop
  | .told made => ∀ id cursor, (id, cursor) ∈ made.cursors →
      ∃ index done, newest before made.stream id = some (index, cursor, done)
  | .landed commit => ∀ read cursor, (read, cursor) ∈ commit.reported →
      (read, .cursor cursor) ∈ commit.positions ∨
        (read, .done) ∈ commit.positions ∧
          lastRead before read.place = some (read.stream, read.id) ∧
          lastStood before read.place = some cursor
  | _ => True

/-- Whether a report of `trace` told what the commit that landed at `index` tells of a partition. -/
def ToldSince (trace : List Happened) (stream : Nat) (id : PartitionId) (index : Nat)
    (told : Cursor × Bool) : Prop :=
  ∃ before made after, trace = before ++ .told made :: after ∧ made.stream = stream ∧
    made.reply = .told ∧ (id, told.1) ∈ made.cursors ∧ newest before stream id = some (index, told)

/-- What is owed after `trace` is what the newest commits tell, until it is told, or may be given
    up. -/
structure Owes (trace : List Happened) (owed : Owed) : Prop where
  newest : ∀ {stream id told}, owed.tells stream id = some told →
    ∃ index, newest trace stream id = some (index, told)
  kept : ∀ {stream id index told}, Engine.newest trace stream id = some (index, told) →
    owed.tells stream id = some told ∨ ToldSince trace stream id index told ∨ told.2 = true

theorem ToldSince.append (h : ToldSince trace stream id index told) (more : List Happened) :
    ToldSince (trace ++ more) stream id index told := by
  obtain ⟨before, made, after, rfl, hmade⟩ := h
  exact ⟨before, made, after ++ more, by simp, hmade⟩

theorem Owes.append {owed : Owed} (h : Owes trace owed)
    (hmore : ∀ happened ∈ more, ∀ stream id, happened.tells stream id = none) :
    Owes (trace ++ more) owed where
  newest := fun {stream id told} htold => by
    rw [newest_append fun happened hmem => hmore happened hmem stream id]
    exact h.newest htold
  kept := fun {stream id index told} hnewest => by
    rw [newest_append fun happened hmem => hmore happened hmem stream id] at hnewest
    exact (h.kept hnewest).imp_right (Or.imp_left fun htold => htold.append more)

/-- A commit that lands, whose cursors are then owed, leaves what the newest commits tell owed. -/
theorem Owes.landed {owed owing : Owed} (h : Owes trace owed) {commit : Landed}
    (howing : ∀ stream id, owing.tells stream id
      = (commit.tells stream id).or (owed.tells stream id)) :
    Owes (trace ++ [.landed commit]) owing where
  newest := fun {stream id told} htold => by
    rw [howing] at htold
    rw [newest_concat, Happened.tells]
    cases htells : commit.tells stream id with
    | none =>
      rw [htells, Option.none_or] at htold
      exact h.newest htold
    | some newer =>
      rw [htells, Option.some_or] at htold
      exact ⟨_, by rw [Option.map_some, Option.some_or, Option.some.inj htold]⟩
  kept := fun {stream id index told} hnewest => by
    rw [newest_concat, Happened.tells] at hnewest
    rw [howing]
    cases htells : commit.tells stream id with
    | none =>
      rw [htells, Option.map_none, Option.none_or] at hnewest
      rw [Option.none_or]
      exact (h.kept hnewest).imp_right (Or.imp_left fun htold => htold.append _)
    | some newer =>
      rw [htells, Option.map_some, Option.some_or, Option.some.injEq, Prod.mk.injEq] at hnewest
      exact .inl (by rw [Option.some_or, hnewest.2])

/-- Telling the source what it is owed tells only what landed, and leaves owed what was neither told
    nor given up. -/
theorem Owes.reporting {owed : Owed} (h : Owes trace owed) (htrace : Each Happened.Truthful trace)
    (replies : Nat → Reply) (turn : Turn) (attempts : Nat) : Each Happened.Truthful
        (trace ++ (report replies turn attempts owed.toList).reports.map .told) ∧
      ((report replies turn attempts owed.toList).ended = false →
        Owes (trace ++ (report replies turn attempts owed.toList).reports.map .told)
          (report replies turn attempts owed.toList).owed) := by
  set reported := report replies turn attempts owed.toList with hreported
  have hquiet : ∀ happened ∈ reported.reports.map Happened.told, ∀ stream id,
      happened.tells stream id = none := by
    intro happened hmem stream id
    obtain ⟨made, -, rfl⟩ := List.mem_map.mp hmem
    rfl
  constructor
  · refine htrace.append fun before happened after hsplit => ?_
    have hmem : happened ∈ reported.reports.map Happened.told := by simp [hsplit]
    obtain ⟨made, hmade, rfl⟩ := List.mem_map.mp hmem
    intro id cursor hcursor
    obtain ⟨done, htold⟩ := tells_of_made hmade hcursor
    obtain ⟨index, hnewest⟩ := h.newest htold
    refine ⟨index, done, ?_⟩
    rw [newest_append fun other hother => hquiet other (by simp [hsplit, hother]) _ _]
    exact hnewest
  · intro hended
    have happend := h.append hquiet
    refine ⟨fun htold => happend.newest (tells_of_report htold),
      fun {stream id index told} hnewest => ?_⟩
    rcases happend.kept hnewest with howed | htold | hdone
    · rcases tells_report hended howed with howed | ⟨made, hmade, hstream, hreply, hcursor⟩ | hdone
      · exact .inl howed
      · obtain ⟨before, after, hsplit⟩ := List.append_of_mem hmade
        rw [← hreported] at hsplit
        refine .inr (.inl ⟨trace ++ before.map .told, made, after.map .told, ?_, hstream, hreply,
          hcursor, ?_⟩)
        · simp [hsplit]
        · have hbefore : ∀ happened ∈ before.map Happened.told, ∀ stream id,
              happened.tells stream id = none := by
            intro happened hmem
            exact hquiet happened
              (by rw [hsplit, List.map_append]; exact List.mem_append_left _ hmem)
          rw [newest_append fun happened hmem => hquiet happened hmem _ _] at hnewest
          rw [newest_append fun happened hmem => hbefore happened hmem _ _]
          exact hnewest
      · exact .inr (.inr hdone)
    · exact .inr (.inl htold)
    · exact .inr (.inr hdone)

/-! ## Commits -/

namespace Coordinator

theorem exists_of_reported {tables : List String} {place : Nat}
    (h : (c.prepare tables).collected.reported[place]? = some cursor) :
    ∃ standing, c.waiting.standing[place]? = some standing ∧
      (c.committing tables)[place]? = some standing.position ∧
      standing.told.or (c.stoodAt place standing.position) = some cursor := by
  have hreported : (c.waiting.standing.filterMap fun index standing =>
      standing.told.or (c.stoodAt index standing.position))[place]? = some cursor := h
  rw [OrdMap.getElem?_filterMap] at hreported
  obtain ⟨standing, hstanding, htold⟩ := Option.bind_eq_some_iff.mp hreported
  refine ⟨standing, hstanding, ?_, htold⟩
  change (c.waiting.standing.map fun _ standing => standing.position)[place]? = _
  rw [Std.ExtTreeMap.getElem?_map, hstanding, Option.map_some]

theorem mem_readsAt {β : Type} {places : OrdMap Nat β} {read : ReadAt} {said : β} :
    (read, said) ∈ c.readsAt places ↔ places[read.place]? = some said ∧
      ∃ run, c.partitions[read.place]? = some run ∧ run.stream = read.stream ∧
        run.id = read.id := by
  unfold readsAt
  rw [List.mem_filterMap]
  constructor
  · rintro ⟨entry, hentry, hread⟩
    obtain ⟨run, hrun, heq⟩ := Option.map_eq_some_iff.mp hread
    obtain ⟨rfl, rfl⟩ := Prod.mk.inj heq
    exact ⟨(OrdMap.mem_toList places).mp hentry, run, hrun, rfl, rfl⟩
  · rintro ⟨hplace, run, hrun, hstream, hid⟩
    refine ⟨(read.place, said), (OrdMap.mem_toList places).mpr hplace, ?_⟩
    rw [hrun, Option.map_some, hstream, hid]

theorem tells_landing (tables : List String) {commit : Landed}
    (hpositions : commit.positions = c.readsAt (c.committing tables))
    (hreported : commit.reported = c.readsAt (c.prepare tables).collected.reported) :
    commit.tells stream id = lastSome
      (c.tellsAt (c.committing tables) stream id)
      (c.prepare tables).collected.reported.toList := by
  rw [Landed.tells, hreported, readsAt, lastSome_filterMap]
  refine lastSome_congr fun entry hentry => ?_
  obtain ⟨standing, -, hposition, -⟩ := exists_of_reported ((OrdMap.mem_toList _).mp hentry)
  rw [tellsAt]
  cases hrun : c.partitions[entry.1]? with
  | none => rfl
  | some run =>
    have hdone : ((⟨entry.1, run.stream, run.id⟩, .done) : ReadAt × PartitionState)
        ∈ commit.positions ↔ standing.position = .done := by
      rw [hpositions, mem_readsAt, hposition, Option.some.injEq]
      simp [hrun]
    simp only [Option.map_some, Option.bind_some, hposition, hdone]

/-- A commit reports cursors it records, or where a read it records done last stood. -/
theorem Follows.truthful (h : c.Follows opened trace) (tables : List String) {commit : Landed}
    (hpositions : commit.positions = c.readsAt (c.committing tables))
    (hreported : commit.reported = c.readsAt (c.prepare tables).collected.reported) :
    Happened.Truthful trace (.landed commit) := by
  intro read cursor hread
  rw [hreported, mem_readsAt] at hread
  obtain ⟨hplace, run, hrun, hstream, hid⟩ := hread
  obtain ⟨standing, hstanding, hposition, htold⟩ := exists_of_reported hplace
  have hlast := (h.housed (held_slots_of hrun)).2
  have hstood := h.stood hrun
  rw [hstanding] at hstood
  rw [hpositions, mem_readsAt, mem_readsAt, hposition]
  cases hstate : standing.position with
  | cursor at' =>
    have hsame : at' = cursor := by simpa [Standing.told, hstate] using htold
    exact .inl ⟨by rw [hsame], run, hrun, hstream, hid⟩
  | done =>
    refine .inr ⟨⟨rfl, run, hrun, hstream, hid⟩, by rw [hlast, hstream, hid], ?_⟩
    cases hbefore : standing.told with
    | some before =>
      rw [hbefore, Option.some_or] at htold
      exact hstood.1 cursor (hbefore.trans htold)
    | none =>
      rw [hbefore, Option.none_or, hstate] at htold
      refine hstood.2 hbefore cursor ?_
      cases hstands : run.stands with
      | none => simp [stoodAt, hrun, hstands] at htold
      | some stands =>
        cases stands with
        | cursor at' => simpa [stoodAt, hrun, hstands] using htold
        | done => simp [stoodAt, hrun, hstands] at htold

end Coordinator

/-! ## Runs -/

/-- What neither lands nor tells the source anything. -/
def Happened.Silent (happened : Happened) : Prop :=
  (∀ stream id, happened.tells stream id = none) ∧ ∀ before, happened.Truthful before

namespace Attempt

variable {attempt : Attempt}

/-- An attempt told its source only what landed, and, while it has not failed, owes the rest. -/
structure Tells (attempt : Attempt) : Prop where
  truthful : Each Happened.Truthful attempt.trace
  owes : attempt.failed = false → Owes attempt.trace attempt.coordinator.owed

theorem Tells.silent (h : attempt.Tells) (hrunning : attempt.failed = false) {next : Attempt}
    (more : List Happened) (htrace : next.trace = attempt.trace ++ more)
    (howed : next.coordinator.owed = attempt.coordinator.owed)
    (hmore : ∀ happened ∈ more, happened.Silent) : next.Tells := by
  constructor
  · rw [htrace]
    refine h.truthful.append fun before happened after hsplit => ?_
    exact (hmore happened (by simp [hsplit])).2 _
  · intro _
    rw [htrace, howed]
    exact (h.owes hrunning).append fun happened hmem => (hmore happened hmem).1

theorem tells_start (h : opened.start = .ok attempt) : attempt.Tells := by
  obtain ⟨c, d, -, rfl, -, howed⟩ := Opened.plans_start h
  have hempty :
      ({ coordinator := { d with launched := [] }, stored := opened.stored } : Attempt).Tells := by
    refine ⟨each_nil, fun _ => ⟨fun htold => ?_, fun hnewest => by cases hnewest⟩⟩
    simp [howed, Owed.tells] at htold
  refine hempty.silent rfl (d.launched.map .launched) rfl rfl fun happened hmem => ?_
  obtain ⟨launch, -, rfl⟩ := List.mem_map.mp hmem
  exact ⟨fun _ _ => rfl, fun _ => trivial⟩

theorem Tells.acknowledged {attempt : Attempt} {c : Coordinator}
    {reported : OrdMap Nat Cursor} {positions : OrdMap Nat PartitionState}
    (htruthful : Each Happened.Truthful attempt.trace)
    (howes : Owes attempt.trace (c.owing reported positions)) (turn : Turn) (replies : Nat → Reply)
    (attempts : Nat) : (attempt.acknowledged c reported positions turn replies attempts).Tells := by
  obtain ⟨htruthful, howes⟩ := howes.reporting htruthful replies turn attempts
  exact ⟨htruthful, howes⟩

theorem Tells.commit (h : attempt.Tells) (hkept : attempt.Kept opened)
    (hrunning : attempt.failed = false) (meets : Meets) (attempts : Nat) :
    (attempt.commit meets attempts).Tells := by
  have hfollows := (hkept.sound hrunning).follows
  have htruthful : Each Happened.Truthful
      (attempt.trace ++ [.landed (attempt.landing meets)]) :=
    h.truthful.concat (hfollows.truthful meets.tables rfl rfl)
  rcases commit_cases attempt meets attempts with
    ⟨hdelta, turn, hcommit⟩ | ⟨c, hcommit⟩ | ⟨c, hcommit⟩ | ⟨turn, hcommit⟩ <;> rw [hcommit]
  · -- With no seal waiting no cursor is reported, and the rest is owed as before.
    have hreported : (attempt.coordinator.prepare meets.tables).collected.reported = ∅ := by
      refine OrdMap.ext fun place => ?_
      rw [Std.ExtTreeMap.getElem?_empty]
      refine Option.eq_none_iff_forall_ne_some.mpr fun cursor hcursor => ?_
      obtain ⟨standing, hstanding, -⟩ := Coordinator.exists_of_reported hcursor
      have hsealing := hfollows.standing.mpr (Option.isSome_iff_exists.mpr ⟨standing, hstanding⟩)
      rw [(hfollows.nothing hdelta).1] at hsealing
      exact Finset.notMem_empty _ hsealing
    refine Tells.acknowledged h.truthful ?_ turn meets.replies attempts
    rw [hreported]
    exact h.owes hrunning
  · exact ⟨h.truthful, fun hfailed => by cases hfailed⟩
  · exact ⟨htruthful, fun hfailed => by cases hfailed⟩
  · refine Tells.acknowledged htruthful ?_ turn meets.replies attempts
    refine (h.owes hrunning).landed fun stream id => ?_
    rw [Coordinator.tells_owing, Coordinator.tells_landing meets.tables rfl rfl]
    congr 1
    · refine lastSome_congr fun entry _ => ?_
      simp only [Coordinator.tellsAt]
      rw [Coordinator.landing_eq]
      simp only [List.getElem?_mapIdx]
      cases attempt.coordinator.partitions[entry.1]? <;> rfl
    · rw [Coordinator.landing_eq]
      rfl

theorem Tells.planned (h : attempt.Tells) (hrunning : attempt.failed = false)
    {outcome : Coordinator.Outcome}
    (hplans : ∃ rest, attempt.coordinator.Plans outcome.1 opened attempt.trace attempt.stored rest ∧
      (outcome.2 = none → rest = [])) : (attempt.planned outcome).Tells := by
  obtain ⟨rest, hplans, -⟩ := hplans
  refine h.silent hrunning (outcome.1.launched.map .launched) rfl hplans.owed
    fun happened hmem => ?_
  obtain ⟨launch, -, rfl⟩ := List.mem_map.mp hmem
  exact ⟨fun _ _ => rfl, fun _ => trivial⟩

theorem Tells.step (h : attempt.Tells) (hkept : attempt.Kept opened) {attempts : Nat}
    {event : Event}
    {next : Attempt} (hstep : attempt.step attempts event = some next) : next.Tells := by
  unfold Attempt.step at hstep
  dsimp only at hstep
  split at hstep
  · cases hstep
  · rename_i hfailed
    have hrunning : attempt.failed = false := by simpa using hfailed
    cases event with
    | sealed sent =>
      dsimp only at hstep
      split at hstep
      · cases hstep
        refine h.silent hrunning _ rfl rfl fun happened hmem => ?_
        obtain rfl := List.mem_singleton.mp hmem
        exact ⟨fun _ _ => rfl, fun _ => trivial⟩
      · cases hstep
    | abandoned segment =>
      cases hstep
      exact h.silent hrunning [] (List.append_nil _).symm rfl fun _ hmem =>
        absurd hmem List.not_mem_nil
    | ended index stopped =>
      dsimp only at hstep
      split at hstep
      · rename_i hreading
        cases hstep
        obtain ⟨read, hheld⟩ := Coordinator.held_of_reading hreading
        obtain ⟨run, hrun, -⟩ := Coordinator.held_slots hheld
        refine h.silent hrunning _ rfl (by simp [Coordinator.ended, hrun]) fun happened hmem => ?_
        obtain rfl := List.mem_singleton.mp hmem
        exact ⟨fun _ _ => rfl, fun _ => trivial⟩
      · cases hstep
    | stop =>
      cases hstep
      exact h.silent hrunning [] (List.append_nil _).symm rfl fun _ hmem =>
        absurd hmem List.not_mem_nil
    | replan stream planned =>
      dsimp only at hstep
      split at hstep
      · cases hstep
      · cases hstep
        exact h.planned hrunning ((hkept.plans hrunning).replanStream stream planned)
    | commit meets =>
      cases hstep
      exact h.commit hkept hrunning meets attempts
    | advance plans =>
      dsimp only at hstep
      split at hstep
      · rename_i hsealing
        cases hstep
        exact h.planned hrunning ((hkept.plans hrunning).advancePhases hsealing plans)
      · cases hstep
    | settle replies =>
      cases hstep
      have howes : Owes attempt.trace (attempt.coordinator.owing ∅ ∅) := h.owes hrunning
      exact Tells.acknowledged h.truthful howes .last replies attempts

theorem tells_run {attempts : Nat} {events : List Event} {first last : Attempt}
    (hstart : opened.start = .ok first) (hrun : first.run attempts events = some last) :
    last.Tells :=
  (run_induction (motive := fun attempt => attempt.Kept opened ∧ attempt.Tells)
    ⟨kept_start hstart, tells_start hstart⟩
    (fun ⟨hkept, htells⟩ hstep => ⟨hkept.step hstep, htells.step hkept hstep⟩) hrun).2

end Attempt

end Rdlt.Engine
