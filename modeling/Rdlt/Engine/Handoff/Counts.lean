/-
  Rdlt.Engine.Handoff.Counts

  What the seals of a stream count is what its commits report: no count is lost
  and none is made twice. What a schema policy discarded is reported as a whole,
  and by column only as long as the columns fit the list a report names.
-/

import Rdlt.Engine.Handoff.Cover

namespace Rdlt.Engine

open Lib

/-! ## What is counted -/

/-- What a sealed segment counts, one count at a time; of what was discarded by column, the rows and
    the values of every column together. -/
inductive Measure where
  | rows | bytes | discardedRows | discardedValues | deletesIgnored | truncatesIgnored
  | filteredDropped | filteredDeleted
  | parsed | tripped | observed | rebuilt | exact
  | columnRows | columnValues
  deriving DecidableEq, Repr

def Measure.all : List Measure :=
  [.rows, .bytes, .discardedRows, .discardedValues, .deletesIgnored, .truncatesIgnored,
    .filteredDropped, .filteredDeleted, .parsed, .tripped, .observed, .rebuilt, .exact, .columnRows,
    .columnValues]

theorem Measure.mem_all (measure : Measure) : measure ∈ all := by
  cases measure <;> decide

def Measure.of : Measure → Counts → Nat
  | rows, counts => counts.rows
  | bytes, counts => counts.bytes
  | discardedRows, counts => counts.discardedRows
  | discardedValues, counts => counts.discardedValues
  | deletesIgnored, counts => counts.deletesIgnored
  | truncatesIgnored, counts => counts.truncatesIgnored
  | filteredDropped, counts => counts.filtered.dropped
  | filteredDeleted, counts => counts.filtered.deleted
  | parsed, counts => counts.shred.parsed
  | tripped, counts => counts.shred.tripped
  | observed, counts => counts.shred.observed
  | rebuilt, counts => counts.shred.rebuilt
  | exact, counts => counts.shred.exact
  | columnRows, counts => counts.discards.counted Discarded.rows
  | columnValues, counts => counts.discards.counted Discarded.values

/-- Whether a seal that counts any of it is more than a move of its partition. -/
def Measure.weighs : Measure → Bool
  | rows | bytes | discardedRows | discardedValues | deletesIgnored | truncatesIgnored
  | filteredDropped | filteredDeleted => true
  | _ => false

/-- Whether a seal that only moves its partition, which another may replace, counts none of
    `measure`. -/
def Seal.Unmoved (measure : Counts → Nat) (reported : Seal) : Prop :=
  reported.movesOnly = true → measure reported.counts = 0

instance (measure : Counts → Nat) (reported : Seal) : Decidable (reported.Unmoved measure) :=
  inferInstanceAs (Decidable (_ → _))

/-- Whether no seal sent that only moves its partition counts any of `measure`. -/
def Unmoved (measure : Counts → Nat) (trace : List Handed) : Prop :=
  ∀ stream sealed, .sent stream sealed ∈ trace → sealed.Unmoved measure

variable {f : Discarded → Nat}

theorem ColumnDiscards.counted_of_isEmpty {discards : ColumnDiscards} (hf : f {} = 0)
    (h : discards.isEmpty = true) : discards.counted f = 0 := by
  rw [counted, discards.some_kept h, hf, Std.ExtTreeMap.isEmpty_iff.mp h]
  rfl

theorem counted_add_discards (hf : Tally {} Discarded.add f) {left right : Counts}
    (hfits : left.discards.counted f + right.discards.counted f ≤ u64Max) :
    (left.add right).discards.counted f = left.discards.counted f + right.discards.counted f := by
  simp only [Counts.add]
  split
  · next hnone => rw [ColumnDiscards.counted_of_isEmpty hf.zero hnone, Nat.add_zero]
  · exact (ColumnDiscards.tally_counted hf).add hfits

theorem Measure.tally (measure : Measure) : Tally {} Counts.add measure.of where
  zero := by cases measure <;> rfl
  add := by
    intro left right hfits
    cases measure with
    | parsed | tripped | observed | rebuilt | exact => exact saturatingAdd_of_le hfits
    | columnRows => exact counted_add_discards ColumnDiscards.tally_rows hfits
    | columnValues => exact counted_add_discards ColumnDiscards.tally_values hfits
    | _ => rfl

theorem Measure.unmoved {measure : Measure} (h : measure.weighs = true) (reported : Seal) :
    reported.Unmoved measure.of := by
  intro hmoves
  simp only [Seal.movesOnly, beq_iff_eq, List.cons.injEq, and_true] at hmoves
  cases measure with
  | parsed | tripped | observed | rebuilt | exact | columnRows | columnValues => cases h
  | _ =>
    simp only [Measure.of]
    omega

/-! ## What a commit reports of a stream -/

def countedOf (taken : List (Nat × Seal)) (stream : Nat) : List (Nat × Seal) :=
  (taken.filter (·.2.counted)).filter (·.1 = stream)

theorem tallied_counts (taken : List (Nat × Seal)) (stream : Nat) :
    ((tallied taken).getD stream {}).counts
      = (countedOf taken stream).foldl (fun counts entry => counts.add entry.2.counts) {} := by
  unfold tallied countedOf
  induction taken.filter (·.2.counted) using List.reverseRecOn with
  | nil => rfl
  | append_singleton entries entry ih =>
    rw [List.foldl_append, List.filter_append, List.foldl_cons, List.foldl_nil, tally,
      Std.ExtTreeMap.getD_eq_getD_getElem?, OrdMap.getElem?_insert]
    by_cases hstream : entry.1 = stream
    · simp [hstream, ih]
    · simp only [hstream, if_false, decide_false, Bool.false_eq_true, not_false_eq_true,
        List.filter_cons_of_neg, List.filter_nil, List.append_nil]
      rw [← ih, Std.ExtTreeMap.getD_eq_getD_getElem?]

def total (measure : Counts → Nat) (entries : List (Nat × Seal)) (stream : Nat) : Nat :=
  ((entries.filter (·.1 = stream)).map fun entry => measure entry.2.counts).sum

@[simp] theorem total_append (measure : Counts → Nat) (entries later : List (Nat × Seal))
    (stream : Nat) : total measure (entries ++ later) stream
      = total measure entries stream + total measure later stream := by
  simp [total]

theorem total_countedOf {measure : Counts → Nat} {taken : List (Nat × Seal)} (stream : Nat)
    (hzero : ∀ entry ∈ taken, entry.2.counted = false → measure entry.2.counts = 0) :
    ((countedOf taken stream).map fun entry => measure entry.2.counts).sum
      = total measure taken stream := by
  induction taken with
  | nil => rfl
  | cons entry taken ih =>
    have hrest := ih fun other hother => hzero other (List.mem_cons_of_mem _ hother)
    simp only [countedOf, total, List.filter_filter] at hrest ⊢
    by_cases hstream : entry.1 = stream <;> cases hcounted : entry.2.counted <;>
      simp [hstream, hcounted, hrest, hzero entry (by simp)]

theorem Collected.Of.measure {commit : Collected} {taken : List (Nat × Seal)} (h : commit.Of taken)
    {measure : Counts → Nat} (htally : Tally {} Counts.add measure) (stream : Nat)
    (hzero : ∀ entry ∈ taken, entry.2.counted = false → measure entry.2.counts = 0)
    (hfits : total measure taken stream ≤ u64Max) :
    measure (commit.streams.getD stream {}).counts = total measure taken stream := by
  have hsum := total_countedOf stream hzero
  rw [h.streams, tallied_counts, htally.foldl (fun entry : Nat × Seal => entry.2.counts) _ _
    (by rw [htally.zero, Nat.zero_add, hsum]; exact hfits), htally.zero, Nat.zero_add, hsum]

/-! ## What the commits report together -/

def reported (measure : Counts → Nat) (trace : List Handed) (stream : Nat) : Nat :=
  ((commits trace).map fun commit => measure (commit.streams.getD stream {}).counts).sum

theorem reported_concat (measure : Counts → Nat) (trace : List Handed) (passed : Handed)
    (stream : Nat) : reported measure (trace ++ [passed]) stream = reported measure trace stream
      + passed.commit.elim 0 fun commit => measure (commit.streams.getD stream {}).counts := by
  cases hcommit : passed.commit <;> simp [reported, commits, hcommit]

theorem reported_add_recent {measure : Counts → Nat} {trace : List Handed} {stream : Nat}
    (hcommits : ∀ before commit after, trace = before ++ .collected commit :: after →
      measure (commit.streams.getD stream {}).counts = total measure (recent before) stream) :
    reported measure trace stream + total measure (recent trace) stream
      = total measure (handovers trace) stream := by
  induction trace using List.reverseRecOn with
  | nil => rfl
  | append_singleton trace passed ih =>
    have hearlier := ih fun before commit after heq =>
      hcommits before commit (after ++ [passed]) (by simp [heq])
    rw [handovers_append, total_append, recent_concat, reported_concat]
    cases passed with
    | taken other handed =>
      simp only [Handed.since, Handed.commit, Option.elim_none, total_append, handovers,
        Handed.handover, List.filterMap_cons, List.filterMap_nil] at hearlier ⊢
      omega
    | collected commit =>
      simp only [Handed.since, Handed.commit, Option.elim_some, hcommits trace commit [] rfl]
      exact hearlier
    | sent | superseded | abandoned => exact hearlier

/-! ## Columns -/

/-- Where nothing that was discarded is left unlisted, counts added up are so column by column. -/
theorem column_foldl (hf : Tally {} Discarded.add f) (key : DiscardKey)
    (entries : List (Nat × Seal))
    (hfits : (entries.map fun entry => entry.2.counts.discards.counted f).sum ≤ u64Max)
    (hlisted : f (entries.foldl (fun counts entry => counts.add entry.2.counts)
      ({} : Counts)).discards.unlisted = 0) :
    f ((entries.foldl (fun counts entry => counts.add entry.2.counts)
        ({} : Counts)).discards.column key)
      = (entries.map fun entry => f (entry.2.counts.discards.column key)).sum := by
  induction entries using List.reverseRecOn with
  | nil => exact hf.zero
  | append_singleton entries entry ih =>
    simp only [List.foldl_append, List.foldl_cons, List.foldl_nil, List.map_append, List.map_cons,
      List.map_nil, List.sum_append, List.sum_cons, List.sum_nil, Nat.add_zero] at hfits hlisted ⊢
    set counts := entries.foldl (fun counts entry => counts.add entry.2.counts) ({} : Counts)
    have hcounted : counts.discards.counted f
        = (entries.map fun entry => entry.2.counts.discards.counted f).sum := by
      have htally : Tally {} Counts.add fun counts => counts.discards.counted f :=
        ⟨ColumnDiscards.counted_of_isEmpty hf.zero rfl, counted_add_discards hf⟩
      have hsum := htally.foldl (fun entry : Nat × Seal => entry.2.counts) entries {} (by
        rw [htally.zero]
        omega)
      rwa [htally.zero, Nat.zero_add] at hsum
    simp only [Counts.add] at hlisted ⊢
    split at hlisted
    · rename_i hnone
      rw [if_pos hnone, ih (by omega) hlisted, ColumnDiscards.column,
        Std.ExtTreeMap.isEmpty_iff.mp hnone]
      exact congrArg (_ + ·) hf.zero.symm
    · rename_i hsome
      obtain ⟨hunlisted, -, hcolumn⟩ :=
        ColumnDiscards.column_absorb hf counts.discards entry.2.counts.discards key
          (by omega) hlisted
      rw [if_neg hsome, hcolumn, ih (by omega) hunlisted]

theorem Collected.Of.column {commit : Collected} {taken : List (Nat × Seal)} (h : commit.Of taken)
    (hf : Tally {} Discarded.add f) (key : DiscardKey) (stream : Nat)
    (hzero : ∀ entry ∈ taken, entry.2.counted = false → entry.2.counts.discards.counted f = 0)
    (hfits : total (·.discards.counted f) taken stream ≤ u64Max)
    (hlisted : f (commit.streams.getD stream {}).counts.discards.unlisted = 0) :
    f ((commit.streams.getD stream {}).counts.discards.column key)
      = total (fun counts => f (counts.discards.column key)) taken stream := by
  have hcounted := @total_countedOf (·.discards.counted f) taken stream hzero
  have hcolumn := @total_countedOf (fun counts => f (counts.discards.column key)) taken stream
    fun entry hentry hnone => Nat.eq_zero_of_le_zero
      ((ColumnDiscards.column_le_counted hf _ key).trans (hzero entry hentry hnone).le)
  rw [h.streams, tallied_counts] at hlisted ⊢
  rw [column_foldl hf key _ (hcounted ▸ hfits) hlisted, hcolumn]

/-! ## Nothing is lost or counted twice -/

/-- A seal of no rows that another took the place of, with the stream it is of. -/
def Handed.replaced : Handed → Option (Nat × Seal)
  | .superseded stream dropped => some (stream, dropped)
  | _ => none

/-- The seals of no rows that others took the place of, in order. -/
def replacements (trace : List Handed) : List (Nat × Seal) := trace.filterMap Handed.replaced

theorem total_of_zero {measure : Counts → Nat} {entries : List (Nat × Seal)} (stream : Nat)
    (hzero : ∀ entry ∈ entries, measure entry.2.counts = 0) : total measure entries stream = 0 := by
  refine List.sum_eq_zero fun count hcount => ?_
  obtain ⟨entry, hentry, rfl⟩ := List.mem_map.mp hcount
  exact hzero entry (List.mem_filter.mp hentry).1

theorem unmoved_of_arrives {measure : Counts → Nat} {reporting arrived dropped : List Seal}
    (h : Arrives reporting arrived dropped)
    (hunmoved : ∀ sealed ∈ reporting, sealed.Unmoved measure) :
    ∀ handed ∈ arrived ++ dropped, handed.Unmoved measure := by
  intro handed hhanded
  have hkey : handed.unanswered ∈ reporting.map Seal.unanswered := by
    rcases List.mem_append.mp hhanded with hhanded | hhanded
    · exact (h.sublist Seal.unanswered_answering).subset (List.mem_map_of_mem hhanded)
    · exact h.dropped_subset Seal.unanswered_answering handed hhanded
  obtain ⟨sealed, hsealed, hsame⟩ := List.mem_map.mp hkey
  have hcounts : sealed.counts = handed.counts :=
    show sealed.unanswered.counts = handed.unanswered.counts by rw [hsame]
  have hone := hunmoved sealed hsealed
  rw [Seal.Unmoved, Seal.movesOnly, hcounts] at hone
  exact hone

section Run

variable {h : Handoff} (hordered : h.Ordered) {measure : Counts → Nat}
  (hunmoved : Unmoved measure h.trace)

include hordered hunmoved

/-- What the seals sent do not count, those handed over do not. -/
theorem handovers_unmoved : ∀ entry ∈ handovers h.trace, entry.2.Unmoved measure := by
  intro entry hentry
  refine unmoved_of_arrives (hordered entry.2.partition) (fun sealed hsealed => ?_) entry.2 ?_
  · obtain ⟨⟨stream, hsent⟩, -⟩ := mem_sents.mp hsealed
    exact hunmoved stream sealed hsent
  · refine List.mem_append_left _ (List.mem_append_left _ ?_)
    rw [takens_eq, List.mem_filter]
    exact ⟨List.mem_map_of_mem hentry, by simp⟩

/-- A seal that another took the place of counts nothing. -/
theorem replacements_unmoved : ∀ entry ∈ replacements h.trace, measure entry.2.counts = 0 := by
  intro entry hentry
  have hdropped : entry.2 ∈ drops h.trace entry.2.partition := by
    obtain ⟨passed, hpassed, hreplaced⟩ := List.mem_filterMap.mp hentry
    cases passed with
    | superseded stream dropped =>
      cases hreplaced
      exact List.mem_filterMap.mpr ⟨_, hpassed, if_pos rfl⟩
    | _ => cases hreplaced
  refine unmoved_of_arrives (hordered entry.2.partition) (fun sealed hsealed => ?_) entry.2
    (List.mem_append_right _ hdropped) ((hordered entry.2.partition).dropped_light entry.2 hdropped)
  obtain ⟨⟨stream, hsent⟩, -⟩ := mem_sents.mp hsealed
  exact hunmoved stream sealed hsent

end Run

theorem reported_before {measure : Counts → Nat} {before : List Handed} {commit : Collected}
    {stream : Nat} (hcommits : ∀ earlier other after, before ++ [.collected commit]
        = earlier ++ .collected other :: after →
      measure (other.streams.getD stream {}).counts = total measure (recent earlier) stream)
    (hzero : ∀ entry ∈ replacements before, measure entry.2.counts = 0) :
    reported measure (before ++ [.collected commit]) stream
      = total measure (handovers before ++ replacements before) stream := by
  have hall := reported_add_recent hcommits
  rw [recent_concat, handovers_append, total_append] at hall
  rw [total_append, total_of_zero stream hzero]
  exact hall

/-- Nothing a seal counts is lost or counted twice: what the commits so far report of a stream is
    what the seals of it handed over or replaced so far count, as long as that fits. So it is of
    rows, bytes, discards, ignored changes and filtered rows; of shredding passes and of discards by
    column, where no seal that only moves its partition counts any; and of one column, where the
    reports leave none unlisted. -/
theorem counts_conserved (c : Coordinator) (exchanges : List Exchange) (h : Handoff)
    (hrun : (Handoff.opened c).run exchanges = some h) (before after : List Handed)
    (commit : Collected) (htrace : h.trace = before ++ .collected commit :: after) (stream : Nat) :
    (∀ measure : Measure, total measure.of (handovers before) stream ≤ u64Max →
      (measure.weighs = false → Unmoved measure.of h.trace) →
      reported measure.of (before ++ [.collected commit]) stream
        = total measure.of (handovers before ++ replacements before) stream) ∧
    ∀ (key : DiscardKey) (f : Discarded → Nat), f = Discarded.rows ∨ f = Discarded.values →
      total (·.discards.counted f) (handovers before) stream ≤ u64Max →
      Unmoved (·.discards.counted f) h.trace →
      (∀ earlier ∈ commits (before ++ [.collected commit]),
        f (earlier.streams.getD stream {}).counts.discards.unlisted = 0) →
      reported (fun counts => f (counts.discards.column key)) (before ++ [.collected commit]) stream
        = total (fun counts => f (counts.discards.column key))
            (handovers before ++ replacements before) stream := by
  obtain ⟨-, hordered, hcollects⟩ := Handoff.kept_run hrun
  have hwhole : h.trace = (before ++ [.collected commit]) ++ after := by simp [htrace]
  have hhistory : History (before ++ [.collected commit]) := (hwhole ▸ hcollects.history).of_append
  -- the seals of a commit up to this one are among those handed over
  have hearlier : ∀ {measure : Counts → Nat}, Unmoved measure h.trace →
      ∀ {earlier other rest}, before ++ [.collected commit] = earlier ++ .collected other :: rest →
      ∀ entry ∈ recent earlier, entry.2.counted = false → measure entry.2.counts = 0 := by
    intro measure hunmoved earlier other rest heq entry hentry hcounted
    refine handovers_unmoved hordered hunmoved entry ?_ ?_
    · rw [hwhole, heq, handovers_append, handovers_append]
      exact List.mem_append_left _ (List.mem_append_left _ ((recent_sublist earlier).subset hentry))
    · simpa [Seal.counted] using (Bool.or_eq_false_iff.mp hcounted).1
  have hbound : ∀ (measure : Counts → Nat) {earlier other rest}, before ++ [.collected commit]
        = earlier ++ .collected other :: rest →
      total measure (recent earlier) stream ≤ total measure (handovers before) stream := by
    intro measure earlier other rest heq
    have hsame := congrArg handovers heq
    rw [handovers_append, show handovers [.collected commit] = [] from rfl, List.append_nil,
      handovers_append] at hsame
    rw [hsame, total_append]
    refine le_trans ?_ (Nat.le_add_right ..)
    exact (((recent_sublist earlier).filter _).map _).sum_le_sum fun _ _ => Nat.zero_le _
  have hreplaced : ∀ {measure : Counts → Nat}, Unmoved measure h.trace →
      ∀ entry ∈ replacements before, measure entry.2.counts = 0 := by
    intro measure hunmoved entry hentry
    refine replacements_unmoved hordered hunmoved entry ?_
    rw [htrace, replacements, List.filterMap_append]
    exact List.mem_append_left _ hentry
  refine ⟨fun measure hfits hshed => ?_, fun key f hf hfits hunmoved hlisted => ?_⟩
  · have hunmoved : Unmoved measure.of h.trace := by
      cases hweighs : measure.weighs with
      | false => exact hshed hweighs
      | true => exact fun _ sealed _ => Measure.unmoved hweighs sealed
    refine reported_before (fun earlier other rest heq => ?_) (hreplaced hunmoved)
    exact (hhistory earlier other rest heq).measure measure.tally stream (hearlier hunmoved heq)
      ((hbound _ heq).trans hfits)
  · have htally : Tally {} Discarded.add f := by
      rcases hf with rfl | rfl
      · exact ColumnDiscards.tally_rows
      · exact ColumnDiscards.tally_values
    refine reported_before (fun earlier other rest heq => ?_) fun entry hentry => ?_
    · refine (hhistory earlier other rest heq).column htally key stream (hearlier hunmoved heq)
        ((hbound _ heq).trans hfits) (hlisted other ?_)
      rw [heq, commits_append]
      exact List.mem_append_right _ (List.mem_cons_self ..)
    · exact Nat.eq_zero_of_le_zero ((ColumnDiscards.column_le_counted htally _ key).trans
        (hreplaced hunmoved entry hentry).le)

def Handed.report : Handed → Option Seal
  | .sent _ sealed => some sealed
  | _ => none

theorem counts_conserved_stopped :
    ∃ h before commit, (Handoff.opened lonePartition).run coveredExchanges = some h ∧
      h.trace = before ++ [.collected commit] ∧
      ∀ measure : Measure, reported measure.of (before ++ [.collected commit]) 0
        = total measure.of (handovers before ++ replacements before) 0 := by
  obtain ⟨h, hrun, hpassed⟩ := Handoff.exists_run lonePartition coveredExchanges
    (fun h => (h.trace.getLast?.bind Handed.commit).isSome &&
      decide (∀ measure ∈ Measure.all, total measure.of (handovers h.trace.dropLast) 0 ≤ u64Max ∧
        ∀ sealed ∈ h.trace.filterMap Handed.report, sealed.Unmoved measure.of))
    (by decide +kernel)
  obtain ⟨hlast, hpassed⟩ := Bool.and_eq_true_iff.mp hpassed
  have hmeets := of_decide_eq_true hpassed
  obtain ⟨commit, hcommit⟩ := Option.isSome_iff_exists.mp hlast
  obtain ⟨passed, hget, hpassed⟩ := Option.bind_eq_some_iff.mp hcommit
  have htrace : h.trace = h.trace.dropLast ++ [.collected commit] := by
    cases passed with
    | collected other =>
      cases hpassed
      exact (List.dropLast_append_getLast? _ hget).symm
    | _ => cases hpassed
  obtain ⟨hmeasures, -⟩ := counts_conserved lonePartition coveredExchanges h hrun
    h.trace.dropLast [] commit htrace 0
  refine ⟨h, h.trace.dropLast, commit, hrun, htrace, fun measure => ?_⟩
  obtain ⟨hfits, hunmoved⟩ := hmeets measure measure.mem_all
  exact hmeasures measure hfits fun _ _ sealed hsent =>
    hunmoved sealed (List.mem_filterMap.mpr ⟨_, hsent, rfl⟩)

/-- The column of a table's values discarded, by number. -/
def numbered (column : Nat) : DiscardKey :=
  { table := "orders", column := toString column, reason := .schemaChange }

def listedDiscards : Counts where
  discardedValues := reportedListed
  discards := (List.range reportedListed).foldl
    (fun discards column => discards.add (numbered column) { values := 1 }) ColumnDiscards.empty

def pastDiscards : Counts where
  discardedValues := 1
  discards := ColumnDiscards.empty.add (numbered reportedListed) { values := 1 }

/-- A read discards a value of each of as many columns as a report lists, then one of another. -/
def discardingExchanges : List Exchange :=
  [.start 0, .checkpoint 0 listedDiscards [1] none, .checkpoint 0 pastDiscards [2] none,
    .take, .take, .take, .collect]

/-- A read shreds and seals nothing else, then seals again before the first is taken. -/
def shreddingExchanges : List Exchange :=
  [.start 0, .checkpoint 0 { shred := { parsed := 1 } } [1] none, .checkpoint 0 {} [2] none,
    .take, .take, .collect]

/-- Whether `exchanges` leave one, by `measure`, that was counted of stream 0 and that no commit of
    all that was handed over reports. -/
def Loses (exchanges : List Exchange) (measure : Counts → Nat) : Prop :=
  ∃ h, (Handoff.opened lonePartition).run exchanges = some h ∧ recent h.trace = [] ∧
    reported measure h.trace 0 = 0 ∧
    total measure (handovers h.trace ++ replacements h.trace) 0 = 1

theorem loses_of_run {exchanges : List Exchange} {measure : Counts → Nat}
    (h : ((Handoff.opened lonePartition).run exchanges).any (fun h =>
      (recent h.trace).isEmpty && decide (reported measure h.trace 0 = 0 ∧
        total measure (handovers h.trace ++ replacements h.trace) 0 = 1)) = true) :
    Loses exchanges measure := by
  obtain ⟨h, hrun, hpassed⟩ := Handoff.exists_run lonePartition exchanges _ h
  obtain ⟨hrecent, hpassed⟩ := Bool.and_eq_true_iff.mp hpassed
  exact ⟨h, hrun, List.isEmpty_iff.mp hrecent, of_decide_eq_true hpassed⟩

/-- What is discarded of a column past those a report lists is not reported under its name, nor a
    shredding pass that a seal of nothing else counts and another takes the place of. -/
theorem column_past_the_list :
    Loses discardingExchanges
      (fun counts => (counts.discards.column (numbered reportedListed)).values) ∧
    Loses shreddingExchanges Measure.parsed.of :=
  ⟨loses_of_run (by decide +kernel), loses_of_run (by decide +kernel)⟩

end Rdlt.Engine
