/-
  Rdlt.Runs.Counted

  What a run's report counts, over any run of attempts: commits that landed, each
  once; every commit whose receipt was accepted; and of the commits whose answer
  was lost at the end of a failed attempt those the next attempt that opened found
  the last to have landed.
-/

import Rdlt.Runs.Sound

namespace Rdlt.Runs

/-! ## Recording an attempt -/

namespace Ledger

/-- The receipts an attempt that is recorded adds, where no total overflows. -/
def adds (ledger : Ledger) (log : AttemptLog) : List Receipt :=
  (ledger.found log).toList.map CommitRecord.receipt ++ log.committed.receipts

theorem found_eq_some {ledger : Ledger} {log : AttemptLog} {commit : CommitRecord} :
    ledger.found log = some commit ↔ ∃ opened ∈ log.opened, ∃ pending ∈ ledger.unresolved,
      opened.2 = some commit.receipt ∧ commit.receipt.key = pending.key ∧
        commit.streams = pending.streams := by
  unfold found Pending.landed
  simp only [Option.bind_eq_some_iff, Option.ite_none_right_eq_some, Option.mem_def]
  constructor
  · rintro ⟨opened, hopened, pending, hpending, last, hlast, hkey, ⟨⟩⟩
    exact ⟨opened, hopened, pending, hpending, hlast, hkey, rfl⟩
  · rintro ⟨opened, hopened, pending, hpending, hlast, hkey, hstreams⟩
    exact ⟨opened, hopened, pending, hpending, commit.receipt, hlast, hkey, by rw [← hstreams]⟩

theorem credit_found_eq_ok {report after : Report} {found : Option CommitRecord}
    (h : found.elim (.ok report) report.credit = .ok after) :
    after.counted = report.counted ++ found.toList.map CommitRecord.receipt ∧
      (report.Counts → after.Counts) := by
  cases found with
  | none =>
    cases h
    exact ⟨(List.append_nil _).symm, id⟩
  | some commit => exact Report.credit_eq_ok h

/-- Recording an attempt counts some of what it adds, each at most once, and leaves in flight its
    own commit or, where it opened nothing, the one there was. -/
theorem record_counts (ledger : Ledger) (log : AttemptLog) (failed : Bool) :
    (∃ more, more.Sublist (ledger.adds log) ∧
      (ledger.record log failed).1.report.counted = ledger.report.counted ++ more) ∧
    (ledger.report.Counts → log.committed.Counts → (ledger.record log failed).1.report.Counts) ∧
    ∀ pending ∈ (ledger.record log failed).1.unresolved,
      log.pending = some pending ∨ log.opened = none ∧ ledger.unresolved = some pending := by
  have hinFlight : ∀ pending ∈ ledger.inFlight log failed,
      log.pending = some pending ∨ log.opened = none ∧ ledger.unresolved = some pending := by
    unfold inFlight
    cases failed <;> cases log.opened <;> cases log.pending <;> simp +contextual
  unfold record
  cases hcredit : (ledger.found log).elim (.ok ledger.report) ledger.report.credit with
  | error overflow =>
    refine ⟨⟨[], List.nil_sublist _, (List.append_nil _).symm⟩, fun hcounts _ => hcounts, ?_⟩
    cases log.opened <;> simp +contextual
  | ok credited =>
    obtain ⟨hcounted, hcounts⟩ := credit_found_eq_ok hcredit
    cases habsorb : credited.absorb log with
    | error overflow =>
      simp only [habsorb]
      exact ⟨⟨_, List.sublist_append_left .., hcounted⟩, fun h _ => hcounts h, hinFlight⟩
    | ok after =>
      obtain ⟨hall, hall'⟩ := Report.absorb_eq_ok habsorb
      simp only [habsorb]
      refine ⟨⟨_, List.Sublist.refl _, ?_⟩, fun h h' => hall' (hcounts h) h', hinFlight⟩
      rw [hall, hcounted, adds, List.append_assoc]

theorem record_ok {ledger : Ledger} {log : AttemptLog} {failed : Bool}
    (h : (ledger.record log failed).2 = .ok ()) :
    (ledger.record log failed).1.report.counted = ledger.report.counted ++ ledger.adds log ∧
      (ledger.record log failed).1.unresolved = ledger.inFlight log failed := by
  unfold record at h ⊢
  cases hcredit : (ledger.found log).elim (.ok ledger.report) ledger.report.credit with
  | error overflow =>
    rw [hcredit] at h
    cases h
  | ok credited =>
    obtain ⟨hcounted, -⟩ := credit_found_eq_ok hcredit
    cases habsorb : credited.absorb log with
    | error overflow =>
      simp only [hcredit, habsorb] at h
      cases h
    | ok after =>
      obtain ⟨hall, -⟩ := Report.absorb_eq_ok habsorb
      simp only [habsorb]
      refine ⟨?_, trivial⟩
      rw [hall, hcounted, adds, List.append_assoc]

end Ledger

/-! ## An attempt that ends -/

namespace Run

variable {receipt : Receipt} {pending : Pending} {ended : Ended}

theorem nextOpened_append (later : List Ended) (ended : Ended) : nextOpened (later ++ [ended]) =
      (nextOpened later).or (if ended.log.opened.isSome then some ended else none) := by
  simp [nextOpened, List.find?_append, List.find?_singleton]

variable {run : Run} {attempt : Attempt}

theorem mem_adds (hmem : receipt ∈ run.ledger.adds attempt.log) :
    (∃ opened ∈ attempt.log.opened, opened.2 = some receipt ∧
        ∃ pending ∈ run.ledger.unresolved, receipt.key = pending.key) ∨
      receipt ∈ attempt.log.committed.receipts := by
  rcases List.mem_append.mp hmem with hmem | hmem
  · obtain ⟨commit, hcommit, rfl⟩ := List.mem_map.mp hmem
    obtain ⟨opened, hopened, pending, hpending, hlast, hkey, -⟩ :=
      Ledger.found_eq_some.mp (Option.mem_toList.mp hcommit)
    exact Or.inl ⟨opened, hopened, hlast, pending, hpending, hkey⟩
  · exact Or.inr hmem

theorem Settled.unresolved_epoch (h : Settled run) (hpending : pending ∈ run.ledger.unresolved) :
    ∃ ended ∈ run.history, ended.log.epoch = some pending.key.epoch := by
  obtain ⟨i, ended, hended, hown, -⟩ := h.unopened pending hpending
  have hmem := List.mem_of_getElem? hended
  exact ⟨ended, hmem, (h.ended ended hmem).pending_epoch hown⟩

section

variable (h : Sound run) (hattempt : run.attempt = some attempt)
include h hattempt

theorem Sound.accepted_epoch
    (hreceipt : receipt ∈ attempt.accepted) : attempt.log.epoch = some receipt.key.epoch := by
  have hsound := (h.current attempt hattempt).log
  cases hopened : attempt.log.opened with
  | none =>
    rw [(hsound.unopened hopened).1] at hreceipt
    cases hreceipt
  | some opened =>
    rw [AttemptLog.epoch, hopened, (hsound.own opened hopened).1 receipt hreceipt]
    rfl

theorem Sound.epoch_ne {key key' : CommitKey} (hended : ended ∈ run.history)
    (hkey : ended.log.epoch = some key.epoch) (hkey' : attempt.log.epoch = some key'.epoch) :
    key ≠ key' := by
  rintro rfl
  exact Nat.lt_irrefl _ ((h.newest attempt hattempt _ hkey').2 ended hended _ hkey)

theorem Sound.adds_new (hmem : receipt ∈ run.ledger.adds attempt.log) : receipt ∈ run.landed ∧
      ((∃ ended ∈ run.history, ended.log.epoch = some receipt.key.epoch) ∨
        attempt.log.epoch = some receipt.key.epoch) ∧
      receipt.key ∉ run.ledger.report.counted.map Receipt.key := by
  have hsound := (h.current attempt hattempt).log
  rcases mem_adds hmem with ⟨opened, hopened, hlast, pending, hpending, hkey⟩ | hown
  · refine ⟨hsound.found opened hopened receipt hlast, Or.inl ?_, ?_⟩
    · rw [hkey]
      exact h.unresolved_epoch hpending
    · rw [hkey]
      exact h.uncounted pending hpending
  · have haccepted := hsound.kept.subset hown
    have hepoch := h.accepted_epoch hattempt haccepted
    refine ⟨hsound.arrived receipt haccepted, Or.inr hepoch, fun hcounted => ?_⟩
    obtain ⟨other, hother, hkey⟩ := List.mem_map.mp hcounted
    obtain ⟨ended, hended, hended'⟩ := h.ofEnded other hother
    exact h.epoch_ne hattempt hended hended' hepoch hkey

theorem Sound.adds_nodup : ((run.ledger.adds attempt.log).map Receipt.key).Nodup := by
  have hsound := (h.current attempt hattempt).log
  have hown : (attempt.log.committed.receipts.map Receipt.key).Nodup :=
    hsound.nodup.sublist (hsound.kept.map _)
  rw [Ledger.adds]
  cases hfound : run.ledger.found attempt.log with
  | none => exact hown
  | some commit =>
    obtain ⟨opened, -, pending, hpending, -, hkey, -⟩ := Ledger.found_eq_some.mp hfound
    refine List.nodup_cons.mpr ⟨fun hmem => ?_, hown⟩
    obtain ⟨receipt, hreceipt, heq⟩ := List.mem_map.mp hmem
    obtain ⟨ended, hended, hepoch⟩ := h.unresolved_epoch hpending
    have hepoch' := h.accepted_epoch hattempt (hsound.kept.subset hreceipt)
    exact h.epoch_ne hattempt hended hepoch hepoch' (hkey.symm.trans heq.symm)

theorem Sound.adds_unopened
    (hopened : attempt.log.opened = none) : run.ledger.adds attempt.log = [] := by
  have hsound := (h.current attempt hattempt).log
  have hreceipts := hsound.kept
  rw [(hsound.unopened hopened).1] at hreceipts
  rw [Ledger.adds, List.sublist_nil.mp hreceipts, Ledger.found, hopened]
  rfl

theorem Sound.pending_new (hpending : attempt.log.pending = some pending) :
    pending.key ∉ (run.ledger.report.counted ++ run.ledger.adds attempt.log).map Receipt.key := by
  have hsound := (h.current attempt hattempt).log
  have hepoch := hsound.pending_epoch hpending
  intro hmem
  obtain ⟨receipt, hreceipt, hkey⟩ := List.mem_map.mp hmem
  rcases List.mem_append.mp hreceipt with hcounted | hadds
  · obtain ⟨ended, hended, hended'⟩ := h.ofEnded receipt hcounted
    exact h.epoch_ne hattempt hended hended' hepoch hkey
  · rcases mem_adds hadds with ⟨opened, -, -, other, hother, hkey'⟩ | hown
    · obtain ⟨ended, hended, hended'⟩ := h.unresolved_epoch hother
      exact h.epoch_ne hattempt hended hended' hepoch (hkey'.symm.trans hkey)
    · exact hsound.fresh pending hpending
        (List.mem_map.mpr ⟨receipt, hsound.kept.subset hown, hkey⟩)

end

def ends (run : Run) (attempt : Attempt) (failed : Bool) : Run :=
  { run with
    ledger := (run.ledger.record attempt.log failed).1
    attempt := none
    history := run.history ++ [{ log := attempt.log, accepted := attempt.accepted, failed }]
    overflowed := run.overflowed ||
      (run.ledger.record attempt.log failed).2.toOption.isNone }

theorem getElem?_ended {history : List Ended} {last : Ended} {i : Nat}
    (h : (history ++ [last])[i]? = some ended) :
    history[i]? = some ended ∧ i < history.length ∨ i = history.length ∧ ended = last := by
  rcases Nat.lt_trichotomy i history.length with hlt | rfl | hgt
  · rw [List.getElem?_append_left hlt] at h
    exact Or.inl ⟨h, hlt⟩
  · rw [List.getElem?_concat_length] at h
    exact Or.inr ⟨rfl, (Option.some.inj h).symm⟩
  · rw [List.getElem?_eq_none (by simp; omega)] at h
    cases h

section

variable (h : Sound run) (hattempt : run.attempt = some attempt)
include h hattempt

theorem Sound.ends (failed : Bool) : Sound (run.ends attempt failed) := by
  obtain ⟨⟨more, hmore, hcounted⟩, hcounts, hunresolved⟩ :=
    Ledger.record_counts run.ledger attempt.log failed
  have hsound := (h.current attempt hattempt).log
  have hepoch := h.newest attempt hattempt
  refine { ended := ?_, older := ?_, distinct := ?_, counts := ?_, landed := ?_, ofEnded := ?_,
           nodup := ?_, uncounted := ?_, unopened := ?_, current := nofun, newest := nofun }
  · intro ended hended
    rcases List.mem_append.mp hended with hended | hended
    · exact h.ended ended hended
    · exact List.mem_singleton.mp hended ▸ hsound
  · intro ended hended epoch he
    rcases List.mem_append.mp hended with hended | hended
    · exact h.older ended hended epoch he
    · obtain rfl := List.mem_singleton.mp hended
      exact (hepoch epoch he).1
  · -- The epoch of the attempt that ends is past those of the attempts before it.
    intro i j left right epoch hi hj hleft hright
    rcases getElem?_ended hi with ⟨hi, -⟩ | ⟨rfl, rfl⟩ <;>
      rcases getElem?_ended hj with ⟨hj, -⟩ | ⟨rfl, rfl⟩
    · exact h.distinct i j left right epoch hi hj hleft hright
    · exact absurd ((hepoch _ hright).2 left (List.mem_of_getElem? hi) _ hleft) (Nat.lt_irrefl _)
    · exact absurd ((hepoch _ hleft).2 right (List.mem_of_getElem? hj) _ hright) (Nat.lt_irrefl _)
    · rfl
  · exact hcounts h.counts hsound.counts
  · intro receipt hreceipt
    rcases List.mem_append.mp (hcounted ▸ hreceipt) with hold | hnew
    · exact h.landed receipt hold
    · exact (h.adds_new hattempt (hmore.subset hnew)).1
  · intro receipt hreceipt
    rcases List.mem_append.mp (hcounted ▸ hreceipt) with hold | hnew
    · obtain ⟨ended, hended, he⟩ := h.ofEnded receipt hold
      exact ⟨ended, List.mem_append_left _ hended, he⟩
    · rcases (h.adds_new hattempt (hmore.subset hnew)).2.1 with ⟨ended, hended, he⟩ | he
      · exact ⟨ended, List.mem_append_left _ hended, he⟩
      · exact ⟨_, List.mem_append_right _ (List.mem_singleton.mpr rfl), he⟩
  · change ((run.ledger.record attempt.log failed).1.report.counted.map Receipt.key).Nodup
    rw [hcounted, List.map_append, List.nodup_append']
    refine ⟨h.nodup, (h.adds_nodup hattempt).sublist (hmore.map _), ?_⟩
    intro key hold hnew
    obtain ⟨receipt, hreceipt, rfl⟩ := List.mem_map.mp hnew
    exact (h.adds_new hattempt (hmore.subset hreceipt)).2.2 hold
  · intro pending hpending hmem
    change _ ∈ (run.ledger.record attempt.log failed).1.report.counted.map Receipt.key at hmem
    rw [hcounted] at hmem
    rcases hunresolved pending hpending with hown | ⟨hopened, hold⟩
    · exact h.pending_new hattempt hown
        (((List.Sublist.refl _).append hmore).map Receipt.key |>.subset hmem)
    · rw [h.adds_unopened hattempt hopened] at hmore
      rw [List.sublist_nil.mp hmore, List.append_nil] at hmem
      exact h.uncounted pending hold hmem
  · intro pending hpending
    rcases hunresolved pending hpending with hown | ⟨hopened, hold⟩
    · refine ⟨run.history.length, _, List.getElem?_concat_length, hown, ?_⟩
      exact congrArg nextOpened (List.drop_eq_nil_of_le (by simp [Run.ends]))
    · obtain ⟨i, ended, hended, hown, hnext⟩ := h.unopened pending hold
      have hi := (List.getElem?_eq_some_iff.mp hended).1
      refine ⟨i, ended, (List.getElem?_append_left hi).trans hended, hown, ?_⟩
      change nextOpened ((run.history ++ _).drop (i + 1)) = none
      rw [List.drop_append_of_le_length hi, nextOpened_append, hnext, hopened]
      rfl

/-- The commit in flight of a failed attempt no open followed is counted as an attempt ends exactly
    where that attempt opened and found it the last to have landed. -/
theorem Sound.mem_counted_ends (hpending : run.ledger.unresolved = some pending) :
    pending.key ∈ (run.ledger.report.counted ++ run.ledger.adds attempt.log).map Receipt.key ↔
      (attempt.log.opened.bind fun opened => opened.2.map Receipt.key) = some pending.key := by
  have hsound := (h.current attempt hattempt).log
  constructor
  · intro hmem
    obtain ⟨receipt, hreceipt, hkey⟩ := List.mem_map.mp hmem
    rcases List.mem_append.mp hreceipt with hcounted | hadds
    · exact absurd (List.mem_map.mpr ⟨receipt, hcounted, hkey⟩) (h.uncounted pending hpending)
    · rcases mem_adds hadds with ⟨opened, hopened, hlast, -⟩ | hown
      · rw [hopened, Option.bind_some, hlast, Option.map_some, hkey]
      · obtain ⟨ended, hended, he⟩ := h.unresolved_epoch hpending
        have he' := h.accepted_epoch hattempt (hsound.kept.subset hown)
        exact absurd hkey.symm (h.epoch_ne hattempt hended he he')
  · intro hfinds
    obtain ⟨opened, hopened, hlast⟩ := Option.bind_eq_some_iff.mp hfinds
    obtain ⟨receipt, hlast, hkey⟩ := Option.map_eq_some_iff.mp hlast
    have hfound : run.ledger.found attempt.log = some { receipt, streams := pending.streams } :=
      Ledger.found_eq_some.mpr ⟨opened, hopened, pending, hpending, hlast, hkey, rfl⟩
    refine List.mem_map.mpr ⟨receipt, List.mem_append_right _ ?_, hkey⟩
    rw [Ledger.adds, hfound]
    exact List.mem_cons_self ..

theorem Sound.not_mem_adds {i : Nat} {next : Ended} (hended : run.history[i]? = some ended)
    (hpending : ended.log.pending = some pending)
    (hnext : nextOpened (run.history.drop (i + 1)) = some next) :
    pending.key ∉ (run.ledger.adds attempt.log).map Receipt.key := by
  have hsound := (h.current attempt hattempt).log
  have hmem := List.mem_of_getElem? hended
  have hepoch := (h.ended ended hmem).pending_epoch hpending
  intro hadds
  obtain ⟨receipt, hreceipt, hkey⟩ := List.mem_map.mp hadds
  rcases mem_adds hreceipt with ⟨opened, -, -, other, hother, hkey'⟩ | hown
  · -- The commit still in flight is of an attempt no open followed.
    obtain ⟨j, ended', hended', hpending', hnone⟩ := h.unopened other hother
    have hepoch' := (h.ended ended' (List.mem_of_getElem? hended')).pending_epoch hpending'
    rw [← hkey', hkey] at hepoch'
    obtain rfl := h.distinct i j ended ended' _ hended hended' hepoch hepoch'
    cases hnext.symm.trans hnone
  · have hepoch' := h.accepted_epoch hattempt (hsound.kept.subset hown)
    exact h.epoch_ne hattempt hmem hepoch hepoch' hkey.symm

end

/-- What is exact stays so once an attempt ends and no total overflows. -/
theorem Exact.ends (hexact : Exact run) (h : Sound run) (hattempt : run.attempt = some attempt)
    {failed : Bool} (hok : (run.ledger.record attempt.log failed).2 = .ok ()) :
    Exact (run.ends attempt failed) := by
  obtain ⟨hcounted, hunresolved⟩ := Ledger.record_ok hok
  have hreceipts := hexact.current attempt hattempt
  have hdrop : ∀ i, i < run.history.length →
      nextOpened ((run.ends attempt failed).history.drop (i + 1)) =
        (nextOpened (run.history.drop (i + 1))).or
          (if attempt.log.opened.isSome then
            some { log := attempt.log, accepted := attempt.accepted, failed } else none) := by
    intro i hi
    rw [Run.ends, List.drop_append_of_le_length hi, nextOpened_append]
  have hlast : nextOpened ((run.ends attempt failed).history.drop (run.history.length + 1)) =
      none := congrArg nextOpened (List.drop_eq_nil_of_le (by simp [Run.ends]))
  refine { accepted := ?_, current := nofun, inFlight := ?_, lost := ?_ }
  · intro ended hended receipt hreceipt
    change receipt ∈ (run.ledger.record attempt.log failed).1.report.counted
    rw [hcounted]
    rcases List.mem_append.mp hended with hended | hended
    · exact List.mem_append_left _ (hexact.accepted ended hended receipt hreceipt)
    · obtain rfl := List.mem_singleton.mp hended
      refine List.mem_append_right _ (List.mem_append_right _ ?_)
      rwa [hreceipts]
  · intro i ended pending hended hfailed hpending hnone
    change (run.ledger.record attempt.log failed).1.unresolved = some pending
    rw [hunresolved, Ledger.inFlight]
    rcases getElem?_ended hended with ⟨hended, hi⟩ | ⟨rfl, rfl⟩
    · rw [hdrop i hi, Option.or_eq_none_iff] at hnone
      have hopened : attempt.log.opened = none := by
        by_contra hopened
        simp [Option.isSome_iff_ne_none.mpr hopened] at hnone
      have hown := ((h.current attempt hattempt).log.unopened hopened).2
      simp [hopened, hown, hexact.inFlight i ended pending hended hfailed hpending hnone.1]
    · obtain rfl : failed = true := hfailed
      rw [if_pos rfl, show attempt.log.pending = some pending from hpending]
      rfl
  · intro i ended pending hended hfailed hpending
    change pending.key ∈ (run.ledger.record attempt.log failed).1.report.counted.map _ ↔ _
    rw [hcounted]
    rcases getElem?_ended hended with ⟨hended, hi⟩ | ⟨rfl, rfl⟩
    · rw [hdrop i hi]
      cases hnext : nextOpened (run.history.drop (i + 1)) with
      | some next =>
        -- An open followed before: this attempt's end changes nothing.
        have hold := hexact.lost i ended pending hended hfailed hpending
        have hnew := h.not_mem_adds hattempt hended hpending hnext
        rw [hnext] at hold
        rw [List.map_append, List.mem_append, hold, Option.some_or]
        exact or_iff_left hnew
      | none =>
        rw [h.mem_counted_ends hattempt
          (hexact.inFlight i ended pending hended hfailed hpending hnext), Option.none_or]
        cases hopened : attempt.log.opened with
        | none => simp
        | some opened => simp [Ended.finds, hopened]
    · refine iff_of_false (h.pending_new hattempt hpending) ?_
      rw [hlast]
      exact fun ⟨next, hnext, _⟩ => nomatch hnext

/-! ## Runs -/

theorem recorded_receipts (hexact : attempt.log.committed.receipts = attempt.accepted)
    (hok : (recorded attempt pending receipt).2 = false) :
    (recorded attempt pending receipt).1.log.committed.receipts =
      (recorded attempt pending receipt).1.accepted := by
  unfold recorded at hok ⊢
  cases hadd : attempt.log.committed.add { receipt, streams := pending.streams } with
  | error overflow =>
    simp only [hadd] at hok
    cases hok
  | ok committed =>
    simp only [hadd]
    rw [(Committed.add_eq_ok hadd).1, hexact]

theorem recorded_epoch (attempt : Attempt) (pending : Pending) (receipt : Receipt) :
    (recorded attempt pending receipt).1.log.epoch = attempt.log.epoch := by
  unfold recorded
  cases hadd : attempt.log.committed.add { receipt, streams := pending.streams } <;>
    simp only [hadd] <;> rfl

/-- What holds of a run, and is exact unless a total overflowed. -/
structure Kept (run : Run) : Prop where
  sound : Sound run
  exact : run.overflowed = false → Exact run

theorem Kept.step {run' : Run} {event : RunEvent} (h : Kept run)
    (hstep : run.step event = some run') : Kept run' := by
  cases event with
  | start =>
    cases hattempt : run.attempt with
    | some attempt => simp [Run.step, hattempt] at hstep
    | none =>
      obtain rfl : { run with attempt := some {} } = run' := by
        simpa [Run.step, hattempt] using hstep
      refine ⟨h.sound.goes_on rfl rfl (List.Subset.refl _) le_rfl ?_ ?_, fun hok =>
        (h.exact hok).goes_on rfl rfl ?_⟩
      · rintro attempt ⟨⟩
        exact Attempt.sound_empty _
      · rintro attempt ⟨⟩ epoch ⟨⟩
      · rintro attempt ⟨⟩
        rfl
  | opens =>
    cases hattempt : run.attempt with
    | none => simp [Run.step, hattempt] at hstep
    | some attempt =>
      simp only [Run.step, hattempt, Option.ite_none_right_eq_some, Option.isNone_iff_eq_none,
        Option.some.injEq] at hstep
      obtain ⟨hopened, rfl⟩ := hstep
      refine ⟨h.sound.goes_on rfl rfl (List.Subset.refl _) (Nat.le_succ _) ?_ ?_, fun hok =>
        (h.exact hok).goes_on rfl rfl ?_⟩
      · rintro _ ⟨⟩
        exact (h.sound.current attempt hattempt).opens hopened
      · rintro _ ⟨⟩ epoch ⟨⟩
        exact ⟨le_rfl, fun ended hended older holder =>
          Nat.lt_succ_of_le (h.sound.older ended hended older holder)⟩
      · rintro _ ⟨⟩
        exact (h.exact hok).current attempt hattempt
  | fences =>
    cases hstep
    refine ⟨h.sound.goes_on rfl rfl (List.Subset.refl _) (Nat.le_succ _) h.sound.current ?_,
      fun hok => (h.exact hok).goes_on rfl rfl (h.exact hok).current⟩
    intro attempt hattempt epoch hepoch
    obtain ⟨hle, hnewest⟩ := h.sound.newest attempt hattempt epoch hepoch
    exact ⟨Nat.le_succ_of_le hle, hnewest⟩
  | begins streams =>
    cases hattempt : run.attempt with
    | none => simp [Run.step, hattempt] at hstep
    | some attempt =>
      cases hopened : attempt.log.opened with
      | none => simp [Run.step, hattempt, hopened] at hstep
      | some opened =>
        cases hpending : attempt.log.pending with
        | some pending => simp [Run.step, hattempt, hopened, hpending] at hstep
        | none =>
          simp only [Run.step, hattempt, hopened, hpending, Option.some.injEq] at hstep
          rw [← hopened] at hstep
          subst hstep
          refine ⟨h.sound.goes_on rfl rfl (List.Subset.refl _) le_rfl ?_ ?_, fun hok =>
            (h.exact hok).goes_on rfl rfl ?_⟩
          · rintro _ ⟨⟩
            exact (h.sound.current attempt hattempt).begins hopened streams
          · rintro _ ⟨⟩
            exact h.sound.newest attempt hattempt
          · rintro _ ⟨⟩
            exact (h.exact hok).current attempt hattempt
  | lands receipt =>
    simp only [Run.step, Option.ite_none_left_eq_some, Option.some.injEq] at hstep
    obtain ⟨-, rfl⟩ := hstep
    have hsub : run.landed ⊆ run.landed ++ [receipt] := List.subset_append_left _ _
    refine ⟨h.sound.goes_on rfl rfl hsub le_rfl ?_ h.sound.newest,
      fun hok => (h.exact hok).goes_on rfl rfl (h.exact hok).current⟩
    intro attempt hattempt
    have hcurrent := h.sound.current attempt hattempt
    exact ⟨hcurrent.log.mono hsub, hcurrent.before, hcurrent.next⟩
  | answers receipt =>
    cases hattempt : run.attempt with
    | none => simp [Run.step, hattempt] at hstep
    | some attempt =>
      cases hpending : attempt.log.pending with
      | none => simp [Run.step, hattempt, hpending] at hstep
      | some pending =>
        simp only [Run.step, hattempt, hpending, Option.ite_none_right_eq_some,
          Option.some.injEq] at hstep
        obtain ⟨⟨hlanded, hkey⟩, rfl⟩ := hstep
        refine ⟨h.sound.goes_on rfl rfl (List.Subset.refl _) le_rfl ?_ ?_, fun hok => ?_⟩
        · rintro _ ⟨⟩
          exact (h.sound.current attempt hattempt).answers hpending hlanded hkey
        · rintro _ ⟨⟩
          rw [recorded_epoch]
          exact h.sound.newest attempt hattempt
        · obtain ⟨hok, hok'⟩ := Bool.or_eq_false_iff.mp hok
          refine (h.exact hok).goes_on rfl rfl ?_
          rintro _ ⟨⟩
          exact recorded_receipts ((h.exact hok).current attempt hattempt) hok'
  | ends failed =>
    cases hattempt : run.attempt with
    | none => simp [Run.step, hattempt] at hstep
    | some attempt =>
      obtain rfl : run.ends attempt failed = run' := by
        simpa [Run.step, hattempt, Run.ends] using hstep
      refine ⟨h.sound.ends hattempt failed, fun hok => ?_⟩
      obtain ⟨hok, hok'⟩ := Bool.or_eq_false_iff.mp hok
      refine (h.exact hok).ends h.sound hattempt ?_
      cases hresult : (run.ledger.record attempt.log failed).2 with
      | error overflow =>
        rw [hresult] at hok'
        cases hok'
      | ok done => rfl

theorem Kept.after {run' : Run} {events : List RunEvent} (h : Kept run)
    (hrun : run.run events = some run') : Kept run' := by
  induction events generalizing run with
  | nil =>
    cases hrun
    exact h
  | cons event events ih =>
    obtain ⟨next, hnext, hrest⟩ := Option.bind_eq_some_iff.mp hrun
    exact ih (h.step hnext) hrest

/-- A run reports each commit that landed once, and no other: its totals count commits that landed,
    each once, and, where no total overflows, every commit whose receipt an attempt that ended
    accepted; a commit in flight as a failed attempt ends is counted exactly where the next attempt
    that opened found its key the last to have landed. -/
theorem reports_landed_once {events : List RunEvent} {run : Run}
    (hrun : Run.run {} events = some run) :
    run.ledger.report.Counts ∧
    (∀ receipt ∈ run.ledger.report.counted, receipt ∈ run.landed) ∧
    (run.ledger.report.counted.map Receipt.key).Nodup ∧
    (run.overflowed = false →
      (∀ ended ∈ run.history, ∀ receipt ∈ ended.accepted, receipt ∈ run.ledger.report.counted) ∧
      ∀ (i : Nat) (ended : Ended) (pending : Pending), run.history[i]? = some ended →
        ended.failed → ended.log.pending = some pending →
        (pending.key ∈ run.ledger.report.counted.map Receipt.key ↔
          ∃ next, nextOpened (run.history.drop (i + 1)) = some next ∧
            next.finds = some pending.key)) := by
  have hkept := Kept.after ⟨sound_empty, fun _ => exact_empty⟩ hrun
  exact ⟨hkept.sound.counts, hkept.sound.landed, hkept.sound.nodup,
    fun hok => ⟨(hkept.exact hok).accepted, (hkept.exact hok).lost⟩⟩

/-- An attempt whose second commit's answer is lost, one that opens nothing, one that finds that
    commit landed and whose own never lands, and one that ends well. -/
def lostAnswers : List RunEvent :=
  let first : Receipt := { key := ⟨1, 1⟩, committedAt := 10, rows := 3, bytes := 64 }
  let second : Receipt := { key := ⟨1, 2⟩, committedAt := 11, rows := 2, bytes := 40 }
  [.start, .opens, .begins ∅, .lands first, .answers first, .begins ∅, .lands second, .ends true,
    .start, .ends true, .start, .opens, .begins ∅, .ends true, .start, .opens, .ends false]

def afterLostAnswers : Run := (Run.run {} lostAnswers).get (by decide +kernel)

theorem reports_landed_once_lost_answers : afterLostAnswers.ledger.report.commits = 2 ∧
      (afterLostAnswers.ledger.report.counted.map Receipt.key).Nodup ∧
      ∃ next, nextOpened (afterLostAnswers.history.drop 1) = some next ∧
        next.finds = some ⟨1, 2⟩ := by
  have hrun : Run.run {} lostAnswers = some afterLostAnswers := (Option.some_get _).symm
  obtain ⟨-, -, hnodup, hexact⟩ := reports_landed_once hrun
  obtain ⟨-, hlost⟩ := hexact (by decide +kernel)
  have hfirst : (afterLostAnswers.history[0]?.bind fun ended =>
      if ended.failed then ended.log.pending.map Pending.key else none) = some ⟨1, 2⟩ := by
    decide +kernel
  obtain ⟨ended, hended, hfirst⟩ := Option.bind_eq_some_iff.mp hfirst
  obtain ⟨hfailed, hpending⟩ := Option.ite_none_right_eq_some.mp hfirst
  obtain ⟨pending, hpending, hkey⟩ := Option.map_eq_some_iff.mp hpending
  have hcounted := hlost 0 ended pending hended hfailed hpending
  rw [hkey] at hcounted
  exact ⟨by decide +kernel, hnodup, hcounted.mp (by decide +kernel)⟩

end Run

end Rdlt.Runs
