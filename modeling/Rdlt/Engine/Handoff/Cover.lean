/-
  Rdlt.Engine.Handoff.Cover

  A recorded position covers exactly its rows.
-/

import Rdlt.Engine.Handoff.Collects
import Rdlt.Engine.Handoff.Order

namespace Rdlt.Engine

variable {trace : List Handed} {place : Nat} {reported : Seal}

/-! ## Segments are spent once -/

theorem eq_of_nodup_filterMap {α β : Type} {f : α → Option β} {l : List α}
    (h : (l.filterMap f).Nodup) {a b : α} {k : β} (ha : a ∈ l) (hb : b ∈ l) (hka : f a = some k)
    (hkb : f b = some k) : a = b := by
  induction l with
  | nil => cases ha
  | cons x l ih =>
    have htail : (l.filterMap f).Nodup := h.sublist ((List.sublist_cons_self x l).filterMap f)
    have hfirst : ∀ y ∈ l, f x = some k → f y = some k → False := fun y hy hx hky => by
      rw [List.filterMap_cons_some hx] at h
      exact (List.nodup_cons.mp h).1 (List.mem_filterMap.mpr ⟨y, hy, hky⟩)
    rcases List.mem_cons.mp ha with hx | hal <;> rcases List.mem_cons.mp hb with hx' | hbl
    · exact hx.trans hx'.symm
    · exact (hfirst b hbl (hx ▸ hka) hkb).elim
    · exact (hfirst a hal (hx' ▸ hkb) hka).elim
    · exact ih htail hal hbl

theorem mem_sents : reported ∈ sents trace place
      ↔ (∃ stream, .sent stream reported ∈ trace) ∧ reported.partition = place := by
  rw [sents, List.mem_filterMap]
  constructor
  · rintro ⟨passed, hpassed, hsent⟩
    cases passed with
    | sent stream other =>
      simp only [Handed.sentBy] at hsent
      split at hsent
      · rename_i hplace
        cases hsent
        exact ⟨⟨stream, hpassed⟩, hplace⟩
      · cases hsent
    | _ => cases hsent
  · rintro ⟨⟨stream, hpassed⟩, rfl⟩
    exact ⟨_, hpassed, if_pos rfl⟩

theorem sents_unique (h : (spent trace).Nodup) {other : Nat}
    {second : Seal} (hreported : reported ∈ sents trace place)
    (hsecond : second ∈ sents trace other) (hsegment : reported.segment = second.segment) :
    reported = second := by
  obtain ⟨⟨stream, hpassed⟩, -⟩ := mem_sents.mp hreported
  obtain ⟨⟨stream', hpassed'⟩, -⟩ := mem_sents.mp hsecond
  cases eq_of_nodup_filterMap h hpassed hpassed' (congrArg some hsegment) rfl
  rfl

/-! ## What is handed over was sealed -/

theorem takens_eq (trace : List Handed) (place : Nat) :
    takens trace place = ((handovers trace).map Prod.snd).filter (·.partition = place) := by
  rw [takens, handovers, List.map_filterMap, List.filter_filterMap]
  refine List.filterMap_congr fun passed _ => ?_
  cases passed with
  | taken stream handed =>
    by_cases hplace : handed.partition = place <;>
      simp [Handed.takenBy, Handed.handover, Option.filter, hplace]
  | _ => rfl

section Run

variable {h : Handoff} (hsound : h.Sound) (hordered : h.Ordered)

include hordered

theorem takens_split {place : Nat} {received rest : List Seal}
    (hreceived : takens h.trace place = received ++ rest) :
    ∃ reported later dropped, sents h.trace place = reported ++ later ∧
      Arrives reported received dropped := by
  have hdelivered : h.delivered place
      = received ++ (rest ++ due (h.latest.waiting place) h.queue place) := by
    rw [Handoff.delivered, hreceived, List.append_assoc]
  obtain ⟨reported, later, dropped, _, hreported, harrives, -⟩ := (hordered place).split hdelivered
  exact ⟨reported, later, dropped, hreported, harrives⟩

theorem exists_sent_of_handover {entry : Nat × Seal} (hentry : entry ∈ handovers h.trace) :
    ∃ reported ∈ sents h.trace entry.2.partition, reported.segment = entry.2.segment := by
  have htaken : entry.2 ∈ takens h.trace entry.2.partition := by
    rw [takens_eq, List.mem_filter]
    exact ⟨List.mem_map_of_mem hentry, by simp⟩
  obtain ⟨reported, later, dropped, hsents, harrives⟩ :=
    takens_split hordered (List.append_nil (takens h.trace entry.2.partition)).symm
  have hsegment := (harrives.sublist Seal.segment_answering).subset (List.mem_map_of_mem htaken)
  obtain ⟨sealed, hsealed, heq⟩ := List.mem_map.mp hsegment
  exact ⟨sealed, hsents ▸ List.mem_append_left _ hsealed, heq⟩

include hsound

theorem countP_handovers_le (segment : SegmentId) :
    (handovers h.trace).countP (·.2.segment = segment) ≤ 1 := by
  by_cases hnone : ∃ entry ∈ handovers h.trace, entry.2.segment = segment
  · obtain ⟨entry, hentry, rfl⟩ := hnone
    obtain ⟨reported, hreported, hsegment⟩ := exists_sent_of_handover hordered hentry
    -- every seal of the segment is of the one partition, whose seals are of segments of their own
    have hplace : ∀ other ∈ handovers h.trace, other.2.segment = entry.2.segment →
        other.2.partition = entry.2.partition := fun other hother heq => by
      obtain ⟨second, hsecond, hsame⟩ := exists_sent_of_handover hordered hother
      have hone := sents_unique hsound.opens.once hreported hsecond
        (hsegment.trans (heq.symm.trans hsame.symm))
      rw [← (mem_sents.mp hsecond).2, ← (mem_sents.mp hreported).2, hone]
    have hcount : (handovers h.trace).countP (·.2.segment = entry.2.segment)
        = ((takens h.trace entry.2.partition).map Seal.segment).count entry.2.segment := by
      rw [takens_eq, List.count, List.countP_map, List.countP_filter, List.countP_map]
      refine List.countP_congr fun other hother => ?_
      simp only [Function.comp_apply, decide_eq_true_eq, beq_iff_eq, Bool.and_eq_true]
      exact ⟨fun heq => ⟨heq, hplace other hother heq⟩, And.left⟩
    obtain ⟨first, later, dropped, hsents, harrives⟩ :=
      takens_split hordered (List.append_nil (takens h.trace entry.2.partition)).symm
    have hnodup := nodup_sents hsound.opens.once entry.2.partition
    rw [hsents, List.map_append] at hnodup
    rw [hcount]
    refine List.nodup_iff_count_le_one.mp (List.Nodup.sublist ?_ (List.nodup_append.mp hnodup).1) _
    exact harrives.sublist Seal.segment_answering
  · rw [List.countP_eq_zero.mpr fun entry hentry heq => hnone ⟨entry, hentry, by simpa using heq⟩]
    exact Nat.zero_le 1

end Run

/-! ## What the commits hold -/

def Seal.fills (segment : SegmentId) (handed : Seal) : Bool :=
  decide (0 < handed.counts.rows) && handed.segment == segment

theorem contains_segments (counted : List Counted) (segment : SegmentId) :
    (Coordinator.segments counted).contains segment = true
      ↔ ∃ entry ∈ counted, 0 < entry.counts.rows ∧ entry.segment = segment := by
  induction counted using List.reverseRecOn with
  | nil => simp [Coordinator.segments]
  | append_singleton counted entry ih =>
    rw [Coordinator.segments, List.foldl_append, List.foldl_cons, List.foldl_nil,
      show counted.foldl _ _ = Coordinator.segments counted from rfl]
    simp only [List.mem_append, List.mem_singleton, or_and_right, exists_or, exists_eq_left]
    split
    · rename_i hrows
      rw [SegmentSet.contains_insert, ih, or_comm, eq_comm]
      simp [hrows]
    · rename_i hrows
      rw [ih]
      simp [hrows]

theorem Seal.movesOnly_of_rows {handed : Seal} (h : 0 < handed.counts.rows) :
    handed.movesOnly = false := by
  rw [Bool.eq_false_iff]
  intro hmoves
  simp only [Seal.movesOnly, beq_iff_eq, List.cons.injEq] at hmoves
  omega

theorem Seal.counted_of_rows {handed : Seal} (h : 0 < handed.counts.rows) :
    handed.counted = true := by
  simp [Seal.counted, Seal.movesOnly_of_rows h]

theorem Collected.Of.contains {commit : Collected} {taken : List (Nat × Seal)}
    (h : commit.Of taken) (segment : SegmentId) :
    commit.segments.contains segment = true ↔ 0 < taken.countP (·.2.fills segment) := by
  rw [h.segments, contains_segments, counted_pushed, List.countP_pos_iff]
  constructor
  · rintro ⟨entry, hentry, hrows, rfl⟩
    obtain ⟨handed, hhanded, rfl⟩ := List.mem_map.mp hentry
    exact ⟨handed, (List.mem_filter.mp hhanded).1, by simpa [Seal.fills] using hrows⟩
  · rintro ⟨handed, hhanded, hfills⟩
    obtain ⟨hrows, hsegment⟩ : 0 < handed.2.counts.rows ∧ handed.2.segment = segment := by
      simpa [Seal.fills] using hfills
    exact ⟨_, List.mem_map_of_mem (List.mem_filter.mpr
      ⟨hhanded, Seal.counted_of_rows hrows⟩), hrows, hsegment⟩

/-- The segments with rows handed over are those of the commits collected and those waiting for the
    next, each of one. -/
theorem countP_commits (hhistory : History trace) (segment : SegmentId)
    (honce : (handovers trace).countP (·.2.fills segment) ≤ 1) :
    (commits trace).countP (·.segments.contains segment) + (recent trace).countP (·.2.fills segment)
      = (handovers trace).countP (·.2.fills segment) := by
  induction trace using List.reverseRecOn with
  | nil => rfl
  | append_singleton trace passed ih =>
    rw [handovers_append, List.countP_append] at honce
    have hearlier := ih hhistory.of_append (by omega)
    rw [commits_append, handovers_append, recent_concat, List.countP_append, List.countP_append]
    cases passed with
    | taken stream handed =>
      simp only [Handed.since, List.countP_append, commits, handovers, Handed.commit,
        Handed.handover, List.filterMap_cons, List.filterMap_nil, List.countP_nil] at hearlier ⊢
      omega
    | collected commit =>
      have hcontains := (hhistory trace commit [] rfl).contains segment
      have hrecent : (recent trace).countP (·.2.fills segment)
          ≤ (handovers trace).countP (·.2.fills segment) :=
        (recent_sublist trace).countP_le
      simp only [Handed.since, List.countP_nil, commits, handovers, Handed.commit,
        Handed.handover, List.filterMap_cons, List.filterMap_nil, List.countP_cons] at hearlier ⊢
      by_cases hheld : commit.segments.contains segment = true
      · have := hcontains.mp hheld
        simp only [hheld, if_true]
        simp only [handovers] at hrecent honce
        omega
      · have hnone : (recent trace).countP (·.2.fills segment) = 0 :=
          Nat.eq_zero_of_not_pos fun hpos => hheld (hcontains.mpr hpos)
        rw [if_neg hheld]
        omega
    | sent | superseded | abandoned =>
      simp only [Handed.since, commits, handovers, Handed.commit, Handed.handover,
        List.filterMap_cons, List.filterMap_nil, List.countP_nil] at hearlier ⊢
      omega

theorem position_pushed (taken : List (Nat × Seal)) (place : Nat) :
    ((pushed taken).standing.map fun _ standing => standing.position)[place]?
      = (((taken.map Prod.snd).filter (·.partition = place)).getLast?).map Seal.state := by
  rw [Std.ExtTreeMap.getElem?_map]
  induction taken using List.reverseRecOn with
  | nil => rfl
  | append_singleton taken entry ih =>
    have hposition : ∀ (state : PartitionState) (earlier : Option Standing),
        (stood state earlier).position = state := fun state earlier => by
      cases state <;> cases earlier <;> rfl
    rw [pushed_concat, List.map_append, List.filter_append]
    simp only [WaitingSeals.push, Lib.OrdMap.getElem?_insert]
    by_cases hplace : entry.2.partition = place
    · simp [hplace, hposition]
    · simpa [hplace] using ih

/-- The last of a partition's seals in the window since a commit is the last of them all. -/
theorem getLast?_recent {last : Seal}
    (h : (((recent trace).map Prod.snd).filter (·.partition = place)).getLast? = some last) :
    (takens trace place).getLast? = some last := by
  rw [takens_eq]
  induction trace using List.reverseRecOn with
  | nil => cases h
  | append_singleton trace passed ih =>
    rw [recent_concat] at h
    rw [handovers_append]
    cases passed with
    | taken stream handed =>
      simp only [Handed.since, handovers, Handed.handover, List.filterMap_cons,
        List.filterMap_nil, List.map_append, List.filter_append, List.map_cons,
        List.map_nil] at h ⊢
      by_cases hplace : handed.partition = place
      · simpa [hplace] using h
      · simp only [hplace, decide_false, Bool.false_eq_true, not_false_eq_true,
          List.filter_cons_of_neg, List.filter_nil, List.append_nil] at h ⊢
        exact ih h
    | collected commit => cases h
    | sent | superseded | abandoned =>
      rw [show handovers [_] = [] from rfl, List.append_nil]
      exact ih h

/-! ## Positions cover their rows -/

theorem Handoff.kept_run {c : Coordinator} {exchanges : List Exchange} {h : Handoff}
    (hrun : (Handoff.opened c).run exchanges = some h) : h.Sound ∧ h.Ordered ∧ h.Collects := by
  have hcollects : (Handoff.opened c).Collects :=
    ⟨rfl, nofun, nofun, fun before commit after heq => by simp [Handoff.opened] at heq⟩
  exact Handoff.run_induction (Handoff.sound_opened c) ⟨fun _ => Lib.Coalesced.nil, hcollects⟩
    (fun _ _ hpasses hkept => And.intro (hkept.1.step hpasses) (hkept.2.step hpasses)) hrun

theorem countP_commits_before {h : Handoff} (hsound : h.Sound) (hordered : h.Ordered)
    (hcollects : h.Collects) {before after : List Handed} {commit : Collected}
    (htrace : h.trace = before ++ .collected commit :: after) (segment : SegmentId) :
    (commits (before ++ [.collected commit])).countP (·.segments.contains segment)
        = (handovers before).countP (·.2.fills segment) ∧
      (handovers before).countP (·.2.fills segment) ≤ 1 := by
  have hwhole : h.trace = (before ++ [.collected commit]) ++ after := by simp [htrace]
  have honce : (handovers before).countP (·.2.fills segment) ≤ 1 := by
    have hle : (handovers before).countP (·.2.fills segment)
        ≤ (handovers before).countP (·.2.segment = segment) :=
      List.countP_mono_left fun entry _ hfills => by
        simpa using (Bool.and_eq_true_iff.mp hfills).2
    refine hle.trans (le_trans ?_ (countP_handovers_le hsound hordered segment))
    rw [htrace, handovers_append]
    exact (List.sublist_append_left ..).countP_le
  have hcount := countP_commits (hwhole ▸ hcollects.history).of_append segment (by
    rw [handovers_append, show handovers [.collected commit] = [] from rfl, List.append_nil]
    exact honce)
  rw [recent_concat, handovers_append, show handovers [.collected commit] = [] from rfl,
    List.append_nil] at hcount
  exact ⟨hcount, honce⟩

/-- A recorded position covers exactly its rows: the position a commit records of a partition is
    that of the last seal of it handed over so far, every segment with rows it sealed up to that
    seal is in exactly one of the commits up to this one, and none it sealed later is in any of
    them; no commit holds a segment let go. -/
theorem recorded_position_covers (c : Coordinator) (exchanges : List Exchange) (h : Handoff)
    (hrun : (Handoff.opened c).run exchanges = some h) (before after : List Handed)
    (commit : Collected) (htrace : h.trace = before ++ .collected commit :: after) (place : Nat)
    (state : PartitionState) (hposition : commit.positions[place]? = some state) :
    ∃ last reported later, (takens before place).getLast? = some last ∧ last.state = state ∧
      sents h.trace place = reported ++ later ∧
      reported.getLast?.map Seal.unanswered = some last.unanswered ∧
      (∀ sealed ∈ reported, 0 < sealed.counts.rows →
        (commits (before ++ [.collected commit])).countP (·.segments.contains sealed.segment) = 1) ∧
      (∀ sealed ∈ later, ∀ earlier ∈ commits (before ++ [.collected commit]),
        earlier.segments.contains sealed.segment = false) ∧
      (∀ other segment, .abandoned other segment ∈ h.trace →
        ∀ any ∈ commits h.trace, any.segments.contains segment = false) := by
  obtain ⟨hsound, hordered, hcollects⟩ := Handoff.kept_run hrun
  have hof : commit.Of (recent before) := hcollects.history before commit after htrace
  rw [hof.positions, position_pushed] at hposition
  obtain ⟨last, hlast, hstate⟩ := Option.map_eq_some_iff.mp hposition
  have hlast := getLast?_recent hlast
  obtain ⟨reported, later, dropped, hsents, harrives⟩ := takens_split hordered
    (show takens h.trace place = takens before place ++ _ by rw [htrace, takens_append])
  have hlastKey := harrives.last_key Seal.unanswered_answering
  rw [hlast] at hlastKey
  have hcount := countP_commits_before hsound hordered hcollects htrace
  refine ⟨last, reported, later, hlast, hstate, hsents, hlastKey.symm,
    fun reporting hmem hrows => ?_,
    fun reporting hmem earlier hearlier => ?_, fun other segment habandoned any hany => ?_⟩
  · have hpositive : 0 < (handovers before).countP (·.2.fills reporting.segment) := by
      have hkept := received_of_arrives harrives |>.rows
      have hin : reporting.unanswered ∈ (reported.map Seal.unanswered).filter (!·.movesOnly) :=
        List.mem_filter.mpr ⟨List.mem_map_of_mem hmem, by
          rw [Seal.movesOnly_of_rows (show 0 < reporting.unanswered.counts.rows from hrows)]
          rfl⟩
      obtain ⟨taken, htaken, hsame⟩ := List.mem_map.mp (List.mem_filter.mp (hkept ▸ hin)).1
      rw [takens_eq] at htaken
      obtain ⟨entry, hentry, rfl⟩ := List.mem_map.mp (List.mem_filter.mp htaken).1
      refine List.countP_pos_iff.mpr ⟨entry, hentry, ?_⟩
      have hsegment : entry.2.segment = reporting.segment :=
        show entry.2.unanswered.segment = reporting.unanswered.segment by rw [hsame]
      have hcounts : entry.2.counts = reporting.counts :=
        show entry.2.unanswered.counts = reporting.unanswered.counts by rw [hsame]
      simp [Seal.fills, hsegment, hcounts, hrows]
    have hle := (hcount reporting.segment).2
    rw [(hcount reporting.segment).1]
    omega
  · have hzero : (handovers before).countP (·.2.fills reporting.segment) = 0 := by
      refine List.countP_eq_zero.mpr fun entry hentry hfills => ?_
      have hsegment : entry.2.segment = reporting.segment := by
        simpa using (Bool.and_eq_true_iff.mp hfills).2
      have hreporting : reporting ∈ sents h.trace place := hsents ▸ List.mem_append_right _ hmem
      have hentry' : entry ∈ handovers h.trace := by
        rw [htrace, handovers_append]
        exact List.mem_append_left _ hentry
      obtain ⟨sealed, hsealed, hsame⟩ := exists_sent_of_handover hordered hentry'
      have hone := sents_unique hsound.opens.once hsealed hreporting (hsame.trans hsegment)
      have hplace : entry.2.partition = place := by
        rw [← (mem_sents.mp hsealed).2, hone, (mem_sents.mp hreporting).2]
      have htaken : entry.2 ∈ takens before place := by
        rw [takens_eq, List.mem_filter]
        exact ⟨List.mem_map_of_mem hentry, by simpa using hplace⟩
      have hnodup := nodup_sents hsound.opens.once place
      rw [hsents, List.map_append] at hnodup
      refine (List.nodup_append.mp hnodup).2.2 _ ?_ _ (List.mem_map_of_mem hmem) hsegment
      exact (harrives.sublist Seal.segment_answering).subset (List.mem_map_of_mem htaken)
    rw [← (hcount reporting.segment).1, List.countP_eq_zero] at hzero
    exact Bool.eq_false_iff.mpr (hzero earlier hearlier)
  · have hzero : (handovers h.trace).countP (·.2.fills segment) = 0 := by
      refine List.countP_eq_zero.mpr fun entry hentry hfills => ?_
      obtain ⟨sealed, hsealed, hsame⟩ := exists_sent_of_handover hordered hentry
      have hsegment : sealed.segment = segment :=
        hsame.trans (by simpa using (Bool.and_eq_true_iff.mp hfills).2)
      obtain ⟨⟨stream, hpassed⟩, -⟩ := mem_sents.mp hsealed
      cases eq_of_nodup_filterMap hsound.opens.once hpassed habandoned (congrArg some hsegment) rfl
    have hwhole := countP_commits hcollects.history segment (by omega)
    have hnone : (commits h.trace).countP (·.segments.contains segment) = 0 := by omega
    exact Bool.eq_false_iff.mpr (List.countP_eq_zero.mp hnone any hany)

/-- A read seals a row, moves, and lets a row go as it stops; one commit is collected between. -/
def coveredExchanges : List Exchange :=
  [.start 0, .checkpoint 0 { rows := 1, bytes := 8 } [1] none,
    .checkpoint 0 {} [2] none, .take, .take,
    .take, .collect, .checkpoint 0 { rows := 2, bytes := 16 } [3] none,
    .finish 0 { rows := 1, bytes := 8 } none true, .take, .take, .take, .collect]

theorem recorded_position_covers_stopped : ∃ h before commit after last reported later,
      (Handoff.opened lonePartition).run coveredExchanges = some h ∧
      h.trace = before ++ .collected commit :: after ∧ commit.positions[0]? = some (.cursor [2]) ∧
      (takens before 0).getLast? = some last ∧ sents h.trace 0 = reported ++ later ∧
      (∀ sealed ∈ reported, 0 < sealed.counts.rows →
        (commits (before ++ [.collected commit])).countP (·.segments.contains sealed.segment) = 1) ∧
      ∀ sealed ∈ later, ∀ earlier ∈ commits (before ++ [.collected commit]),
        earlier.segments.contains sealed.segment = false := by
  obtain ⟨h, hrun, hpassed⟩ := Handoff.exists_run lonePartition coveredExchanges
    (fun h => h.trace.any fun passed => passed.commit.any fun commit =>
      commit.positions[0]? == some (.cursor [2])) (by decide +kernel)
  obtain ⟨passed, hmem, hcommit⟩ := List.any_eq_true.mp hpassed
  obtain ⟨before, after, htrace⟩ := List.append_of_mem hmem
  cases passed with
  | collected commit =>
    have hposition : commit.positions[0]? = some (.cursor [2]) := by
      simpa [Handed.commit] using hcommit
    obtain ⟨last, reported, later, hlast, -, hsents, -, hrows, hnone, -⟩ :=
      recorded_position_covers lonePartition coveredExchanges h hrun before after commit htrace 0 _
        hposition
    exact ⟨h, before, commit, after, last, reported, later, hrun, htrace, hposition, hlast, hsents,
      hrows, hnone⟩
  | _ => cases hcommit

end Rdlt.Engine
