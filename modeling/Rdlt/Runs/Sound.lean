/-
  Rdlt.Runs.Sound

  What holds of a run of attempts: every log's commits are of the epoch its
  session opened, at distinct places; the epochs of the attempts that opened are
  distinct; and the ledger counts receipts of attempts that ended, each once.
-/

import Rdlt.Lib.Checked
import Rdlt.Runs.Run

namespace Rdlt.Runs

open Lib

variable {log : AttemptLog} {landed : List Receipt} {attempt : Attempt} {accepted : List Receipt}
  {run run' : Run} {commit : CommitRecord} {pending : Pending}

/-! ## Totals -/

/-- Totals that count `receipts`. -/
structure Tallied (commits rows bytes : Nat) (receipts : List Receipt) : Prop where
  commits : commits = receipts.length
  rows : rows = (receipts.map Receipt.rows).sum
  bytes : bytes = (receipts.map Receipt.bytes).sum

theorem total_eq_ok {held more sum : Nat} (h : total held more = .ok sum) : sum = held + more := by
  unfold total at h
  split at h
  · exact (Except.ok.inj h).symm
  · cases h

theorem Tallied.append {commits rows bytes commits' rows' bytes' : Nat}
    {receipts receipts' : List Receipt} (h : Tallied commits rows bytes receipts)
    (h' : Tallied commits' rows' bytes' receipts') :
    Tallied (commits + commits') (rows + rows') (bytes + bytes') (receipts ++ receipts') where
  commits := by rw [h.commits, h'.commits, List.length_append]
  rows := by rw [h.rows, h'.rows, List.map_append, List.sum_append]
  bytes := by rw [h.bytes, h'.bytes, List.map_append, List.sum_append]

theorem tallied_singleton (receipt : Receipt) : Tallied 1 receipt.rows receipt.bytes [receipt] := by
  constructor <;> simp

abbrev Committed.Counts (committed : Committed) : Prop :=
  Tallied committed.commits committed.rows committed.bytes committed.receipts

abbrev Report.Counts (report : Report) : Prop :=
  Tallied report.commits report.rows report.bytes report.counted

theorem Committed.add_eq_ok {committed after : Committed} (h : committed.add commit = .ok after) :
    after.receipts = committed.receipts ++ [commit.receipt] ∧
      (committed.Counts → after.Counts) := by
  obtain ⟨rows, hrows, h⟩ := bind_eq_ok.mp h
  obtain ⟨bytes, hbytes, h⟩ := bind_eq_ok.mp h
  cases h
  refine ⟨rfl, fun hcounts => ?_⟩
  have hadded := hcounts.append (tallied_singleton commit.receipt)
  rwa [← total_eq_ok hrows, ← total_eq_ok hbytes] at hadded

theorem Report.absorb_eq_ok {report after : Report} (h : report.absorb log = .ok after) :
    after.counted = report.counted ++ log.committed.receipts ∧
      (report.Counts → log.committed.Counts → after.Counts) := by
  obtain ⟨rows, hrows, h⟩ := bind_eq_ok.mp h
  obtain ⟨bytes, hbytes, h⟩ := bind_eq_ok.mp h
  cases h
  refine ⟨rfl, fun hcounts hlog => ?_⟩
  have hadded := hcounts.append hlog
  rwa [← total_eq_ok hrows, ← total_eq_ok hbytes] at hadded

theorem Report.credit_eq_ok {report after : Report} (h : report.credit commit = .ok after) :
    after.counted = report.counted ++ [commit.receipt] ∧ (report.Counts → after.Counts) := by
  obtain ⟨committed, hadd, h⟩ := bind_eq_ok.mp h
  obtain ⟨rows, hrows, h⟩ := bind_eq_ok.mp h
  obtain ⟨bytes, hbytes, h⟩ := bind_eq_ok.mp h
  cases h
  obtain ⟨hreceipts, hcounted⟩ := Committed.add_eq_ok hadd
  have hone : committed.Counts := hcounted ⟨rfl, rfl, rfl⟩
  refine ⟨congrArg (report.counted ++ ·) hreceipts, fun hcounts => ?_⟩
  have hadded := hcounts.append hone
  rwa [← total_eq_ok hrows, ← total_eq_ok hbytes] at hadded

/-! ## What holds of an attempt -/

/-- What an attempt recorded, and the receipts it accepted, of a destination where `landed` did. -/
structure AttemptLog.Sound (landed : List Receipt) (log : AttemptLog) (accepted : List Receipt) :
    Prop where
  unopened : log.opened = none → accepted = [] ∧ log.pending = none
  own : ∀ opened ∈ log.opened, (∀ receipt ∈ accepted, receipt.key.epoch = opened.1) ∧
    ∀ pending ∈ log.pending, pending.key.epoch = opened.1
  nodup : (accepted.map Receipt.key).Nodup
  fresh : ∀ pending ∈ log.pending, pending.key ∉ accepted.map Receipt.key
  kept : log.committed.receipts.Sublist accepted
  counts : log.committed.Counts
  arrived : ∀ receipt ∈ accepted, receipt ∈ landed
  found : ∀ opened ∈ log.opened, ∀ receipt ∈ opened.2, receipt ∈ landed

theorem AttemptLog.Sound.mono {landed' : List Receipt} (h : log.Sound landed accepted)
    (hsub : landed ⊆ landed') :
    log.Sound landed' accepted :=
  { h with
    arrived := fun receipt hreceipt => hsub (h.arrived receipt hreceipt)
    found := fun opened hopened receipt hreceipt =>
      hsub (h.found opened hopened receipt hreceipt) }

/-- What holds of the attempt in progress: what it recorded, and the places of its commits. -/
structure Attempt.Sound (landed : List Receipt) (attempt : Attempt) : Prop where
  log : attempt.log.Sound landed attempt.accepted
  before : ∀ receipt ∈ attempt.accepted, receipt.key.seq < attempt.seq
  next : ∀ pending ∈ attempt.log.pending, pending.key.seq = attempt.seq

theorem Attempt.sound_empty (landed : List Receipt) : Attempt.Sound landed {} where
  log :=
    { unopened := fun _ => ⟨rfl, rfl⟩
      own := nofun
      nodup := List.nodup_nil
      fresh := nofun
      kept := List.Sublist.refl _
      counts := ⟨rfl, rfl, rfl⟩
      arrived := nofun
      found := nofun }
  before := nofun
  next := nofun

theorem Attempt.Sound.opens {epoch : Epoch}
    (h : attempt.Sound landed) (hopened : attempt.log.opened = none) :
    Attempt.Sound landed { attempt with
      log := { attempt.log with opened := some (epoch, landed.getLast?) } } := by
  obtain ⟨haccepted, hpending⟩ := h.log.unopened hopened
  refine ⟨{ h.log with unopened := nofun, own := ?_, found := ?_ }, h.before, h.next⟩
  · intro opened _
    simp [haccepted, hpending]
  · rintro opened ⟨⟩ receipt hreceipt
    exact List.mem_of_getLast? hreceipt

theorem Attempt.Sound.begins {epoch : Epoch} {last : Option Receipt} (h : attempt.Sound landed)
    (hopened : attempt.log.opened = some (epoch, last)) (streams : Streams) :
    Attempt.Sound landed { attempt with
      log := { attempt.log with
        pending := some { key := { epoch, seq := attempt.seq }, streams } } } := by
  refine ⟨{ h.log with unopened := ?_, own := ?_, fresh := ?_ }, h.before, ?_⟩
  · intro hnone
    cases hopened.symm.trans hnone
  · intro opened hmem
    refine ⟨(h.log.own opened hmem).1, ?_⟩
    rintro pending ⟨⟩
    exact congrArg Prod.fst (Option.some.inj (hopened.symm.trans hmem))
  · -- The receipts accepted are of earlier places.
    rintro pending ⟨⟩ hmem
    obtain ⟨receipt, hreceipt, hkey⟩ := List.mem_map.mp hmem
    have hseq := h.before receipt hreceipt
    rw [hkey] at hseq
    exact Nat.lt_irrefl _ hseq
  · rintro pending ⟨⟩
    rfl

/-- An attempt whose commit is answered: it accepts the receipt, whether or not a total overflows
    as it counts it. -/
theorem Attempt.Sound.answers {receipt : Receipt} (h : attempt.Sound landed)
    (hpending : attempt.log.pending = some pending) (hlanded : receipt ∈ landed)
    (hkey : receipt.key = pending.key) :
    (Run.recorded attempt pending receipt).1.Sound landed := by
  have hlog : ∀ committed : Committed,
      committed.receipts.Sublist (attempt.accepted ++ [receipt]) → committed.Counts →
      Attempt.Sound landed { attempt with
        log := { attempt.log with pending := none, committed }
        seq := attempt.seq + 1
        accepted := attempt.accepted ++ [receipt] } := by
    intro committed hkept hcounts
    refine ⟨⟨?_, ?_, ?_, nofun, hkept, hcounts, ?_, h.log.found⟩, ?_, nofun⟩
    · intro hnone
      cases hpending.symm.trans (h.log.unopened hnone).2
    · intro opened hmem
      obtain ⟨haccepted, hown⟩ := h.log.own opened hmem
      refine ⟨fun other hother => ?_, nofun⟩
      rcases List.mem_append.mp hother with hother | hother
      · exact haccepted other hother
      · rw [List.mem_singleton.mp hother, hkey]
        exact hown pending hpending
    · rw [List.map_append, List.nodup_append_comm]
      simpa [hkey] using And.intro (by simpa using h.log.fresh pending hpending) h.log.nodup
    · intro other hother
      rcases List.mem_append.mp hother with hother | hother
      · exact h.log.arrived other hother
      · exact List.mem_singleton.mp hother ▸ hlanded
    · intro other hother
      rcases List.mem_append.mp hother with hother | hother
      · exact (h.before other hother).trans (Nat.lt_succ_self _)
      · rw [List.mem_singleton.mp hother, hkey, h.next pending hpending]
        exact Nat.lt_succ_self _
  unfold Run.recorded
  cases hadd : attempt.log.committed.add { receipt, streams := pending.streams } with
  | error overflow =>
    simp only [hadd]
    exact hlog attempt.log.committed (h.log.kept.trans (List.sublist_append_left ..)) h.log.counts
  | ok committed =>
    simp only [hadd]
    obtain ⟨hreceipts, hcounts⟩ := Committed.add_eq_ok hadd
    refine hlog committed ?_ (hcounts h.log.counts)
    rw [hreceipts]
    exact h.log.kept.append (List.Sublist.refl _)

def AttemptLog.epoch (log : AttemptLog) : Option Epoch := log.opened.map Prod.fst

theorem AttemptLog.Sound.pending_epoch (h : log.Sound landed accepted)
    (hpending : log.pending = some pending) :
    log.epoch = some pending.key.epoch := by
  cases hopened : log.opened with
  | none => cases hpending.symm.trans (h.unopened hopened).2
  | some opened =>
    rw [AttemptLog.epoch, hopened, (h.own opened hopened).2 pending hpending]
    rfl

namespace Run

/-- What the ledger and the attempts that ended hold together. -/
structure Settled (run : Run) : Prop where
  ended : ∀ ended ∈ run.history, ended.log.Sound run.landed ended.accepted
  older : ∀ ended ∈ run.history, ∀ epoch ∈ ended.log.epoch, epoch ≤ run.epoch
  distinct : ∀ (i j : Nat) (left right : Ended) (epoch : Epoch), run.history[i]? = some left →
    run.history[j]? = some right → left.log.epoch = some epoch →
    right.log.epoch = some epoch → i = j
  counts : run.ledger.report.Counts
  landed : ∀ receipt ∈ run.ledger.report.counted, receipt ∈ run.landed
  ofEnded : ∀ receipt ∈ run.ledger.report.counted,
    ∃ ended ∈ run.history, ended.log.epoch = some receipt.key.epoch
  nodup : (run.ledger.report.counted.map Receipt.key).Nodup
  uncounted : ∀ pending ∈ run.ledger.unresolved,
    pending.key ∉ run.ledger.report.counted.map Receipt.key
  unopened : ∀ pending ∈ run.ledger.unresolved, ∃ (i : Nat) (ended : Ended),
    run.history[i]? = some ended ∧ ended.log.pending = some pending ∧
      nextOpened (run.history.drop (i + 1)) = none

/-- What holds of a run. -/
structure Sound (run : Run) : Prop extends Settled run where
  current : ∀ attempt ∈ run.attempt, attempt.Sound run.landed
  newest : ∀ attempt ∈ run.attempt, ∀ epoch ∈ attempt.log.epoch, epoch ≤ run.epoch ∧
    ∀ ended ∈ run.history, ∀ older ∈ ended.log.epoch, older < epoch

/-- What holds of a run no total of which overflowed: nothing accepted is left out, and a commit in
    flight at the end of a failed attempt is counted where the next open found it landed. -/
structure Exact (run : Run) : Prop where
  accepted : ∀ ended ∈ run.history, ∀ receipt ∈ ended.accepted,
    receipt ∈ run.ledger.report.counted
  current : ∀ attempt ∈ run.attempt, attempt.log.committed.receipts = attempt.accepted
  inFlight : ∀ (i : Nat) (ended : Ended) (pending : Pending), run.history[i]? = some ended →
    ended.failed → ended.log.pending = some pending →
    nextOpened (run.history.drop (i + 1)) = none → run.ledger.unresolved = some pending
  lost : ∀ (i : Nat) (ended : Ended) (pending : Pending), run.history[i]? = some ended →
    ended.failed → ended.log.pending = some pending →
    (pending.key ∈ run.ledger.report.counted.map Receipt.key ↔
      ∃ next, nextOpened (run.history.drop (i + 1)) = some next ∧ next.finds = some pending.key)

theorem sound_empty : Sound {} where
  ended := nofun
  older := nofun
  distinct := nofun
  counts := ⟨rfl, rfl, rfl⟩
  landed := nofun
  ofEnded := nofun
  nodup := List.nodup_nil
  uncounted := nofun
  unopened := nofun
  current := nofun
  newest := nofun

theorem exact_empty : Exact {} where
  accepted := nofun
  current := nofun
  inFlight := nofun
  lost := nofun

/-! ## While an attempt is in progress -/

theorem Settled.goes_on (h : Settled run) (hledger : run'.ledger = run.ledger)
    (hhistory : run'.history = run.history) (hlanded : run.landed ⊆ run'.landed)
    (hepoch : run.epoch ≤ run'.epoch) : Settled run' where
  ended ended hended := (h.ended ended (hhistory ▸ hended)).mono hlanded
  older ended hended epoch he := (h.older ended (hhistory ▸ hended) epoch he).trans hepoch
  distinct := by rw [hhistory]; exact h.distinct
  counts := by rw [hledger]; exact h.counts
  landed receipt hreceipt := hlanded (h.landed receipt (hledger ▸ hreceipt))
  ofEnded := by rw [hledger, hhistory]; exact h.ofEnded
  nodup := by rw [hledger]; exact h.nodup
  uncounted := by rw [hledger]; exact h.uncounted
  unopened := by rw [hledger, hhistory]; exact h.unopened

theorem Sound.goes_on (h : Sound run) (hledger : run'.ledger = run.ledger)
    (hhistory : run'.history = run.history) (hlanded : run.landed ⊆ run'.landed)
    (hepoch : run.epoch ≤ run'.epoch)
    (hcurrent : ∀ attempt ∈ run'.attempt, attempt.Sound run'.landed)
    (hnewest : ∀ attempt ∈ run'.attempt, ∀ epoch ∈ attempt.log.epoch,
      epoch ≤ run'.epoch ∧ ∀ ended ∈ run.history, ∀ older ∈ ended.log.epoch, older < epoch) :
    Sound run' where
  toSettled := h.toSettled.goes_on hledger hhistory hlanded hepoch
  current := hcurrent
  newest := by rw [hhistory]; exact hnewest

theorem Exact.goes_on (h : Exact run) (hledger : run'.ledger = run.ledger)
    (hhistory : run'.history = run.history)
    (hcurrent : ∀ attempt ∈ run'.attempt, attempt.log.committed.receipts = attempt.accepted) :
    Exact run' where
  accepted := by rw [hledger, hhistory]; exact h.accepted
  current := hcurrent
  inFlight := by rw [hledger, hhistory]; exact h.inFlight
  lost := by rw [hledger, hhistory]; exact h.lost

end Run

end Rdlt.Runs
