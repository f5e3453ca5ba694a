/-
  Rdlt.Runs.Ledger

  A run's attempts as it makes them, each folded into its report as it ends.
-/

import Rdlt.Engine.Coordinator.Commit

namespace Rdlt.Runs

open Engine (StreamReport)

/-! ## What an attempt commits -/

/-- A destination's receipts count more rows or bytes than a total holds. -/
inductive ReceiptOverflow where
  | receiptOverflow
  deriving DecidableEq, Repr

def total (held more : Nat) : Except ReceiptOverflow Nat :=
  if held + more ≤ Lib.u64Max then .ok (held + more) else .error .receiptOverflow

def absorbed (report other : StreamReport) : StreamReport where
  commits := report.commits + other.commits
  counts := report.counts.add other.counts

abbrev Streams := Lib.OrdMap StreamName StreamReport

/-- Adds what each of `more` counts to its stream's. -/
def Streams.absorb (streams more : Streams) : Streams :=
  more.toList.foldl (fun streams entry =>
    streams.insert entry.1 (absorbed (streams.getD entry.1 {}) entry.2)) streams

/-- One commit and what each stream contributed to it. -/
structure CommitRecord where
  receipt : Receipt
  streams : Streams

/-- A commit in flight, whose answer has not arrived. -/
structure Pending where
  key : CommitKey
  streams : Streams

/-- The commit, once `landed`, the receipt the destination holds of the key that landed last, shows
    it landed. -/
def Pending.landed (pending : Pending) (landed : Receipt) : Option CommitRecord :=
  if landed.key = pending.key then some { receipt := landed, streams := pending.streams } else none

/-- What an attempt committed, folded as each commit lands. The receipts folded are kept here
    beside their totals, to say what the totals count. -/
structure Committed where
  commits : Nat := 0
  rows : Nat := 0
  bytes : Nat := 0
  streams : Streams := ∅
  receipts : List Receipt := []

def Committed.add (committed : Committed) (commit : CommitRecord) :
    Except ReceiptOverflow Committed := do
  let rows ← total committed.rows commit.receipt.rows
  let bytes ← total committed.bytes commit.receipt.bytes
  .ok
    { rows
      bytes
      commits := committed.commits + 1
      streams := committed.streams.absorb commit.streams
      receipts := committed.receipts ++ [commit.receipt] }

/-- What an attempt did, recorded as it happens so a failed attempt still reports its commits. -/
structure AttemptLog where
  committed : Committed := {}
  /-- The commit in flight, whose answer has not arrived. -/
  pending : Option Pending := none
  /-- The epoch of the session the attempt opened, and the receipt of the last commit that had
      landed when it did; none where it opened none. -/
  opened : Option (Epoch × Option Receipt) := none

/-! ## The report -/

def reportedAttempts : Nat := 128

structure AttemptReport where
  epoch : Option Epoch
  commits : Nat
  rows : Nat
  bytes : Nat
  deriving DecidableEq, Repr

/-- What a run reports of its commits. The receipts counted are kept beside their totals, to say
    what the totals count. -/
structure Report where
  attempts : List AttemptReport := []
  attempted : Nat := 0
  rows : Nat := 0
  bytes : Nat := 0
  commits : Nat := 0
  streams : Streams := ∅
  counted : List Receipt := []

namespace Report

/-- Folds an attempt in, listing it among the latest. -/
def absorb (report : Report) (log : AttemptLog) : Except ReceiptOverflow Report := do
  let committed := log.committed
  let rows ← total report.rows committed.rows
  let bytes ← total report.bytes committed.bytes
  let attempts := report.attempts ++
    [{ epoch := log.opened.map Prod.fst, commits := committed.commits, rows := committed.rows,
       bytes := committed.bytes }]
  .ok
    { rows
      bytes
      commits := report.commits + committed.commits
      streams := report.streams.absorb committed.streams
      attempted := report.attempted + 1
      attempts := if reportedAttempts < attempts.length then attempts.tail else attempts
      counted := report.counted ++ committed.receipts }

def credited (epoch : Epoch) (committed : Committed) : List AttemptReport → List AttemptReport
  | [] => []
  | listed :: attempts =>
    if listed.epoch = some epoch then
      { listed with
        commits := listed.commits + committed.commits
        rows := Lib.saturatingAdd listed.rows committed.rows
        bytes := Lib.saturatingAdd listed.bytes committed.bytes } :: attempts
    else listed :: credited epoch committed attempts

/-- Credits `commit` to the folded attempt whose epoch its receipt's key names. -/
def credit (report : Report) (commit : CommitRecord) : Except ReceiptOverflow Report := do
  let committed ← Committed.add {} commit
  let rows ← total report.rows committed.rows
  let bytes ← total report.bytes committed.bytes
  .ok
    { report with
      rows
      bytes
      commits := report.commits + committed.commits
      streams := report.streams.absorb committed.streams
      attempts := credited commit.receipt.key.epoch committed report.attempts
      counted := report.counted ++ committed.receipts }

end Report

/-! ## The ledger -/

/-- A run's report so far, and a failed attempt's commit whose answer was lost. -/
structure Ledger where
  report : Report := {}
  unresolved : Option Pending := none

namespace Ledger

def found (ledger : Ledger) (log : AttemptLog) : Option CommitRecord :=
  log.opened.bind fun opened => ledger.unresolved.bind fun pending => opened.2.bind pending.landed

/-- The commit in flight once an attempt that `failed` or not is recorded: an open settles the one
    there was. -/
def inFlight (ledger : Ledger) (log : AttemptLog) (failed : Bool) : Option Pending :=
  let unresolved := if log.opened.isSome then none else ledger.unresolved
  if failed then log.pending.or unresolved else unresolved

/-- Records an attempt that `failed` or not: credits the commit in flight it found landed, keeps its
    own, and folds it in. The ledger as it is left, and whether a total overflowed. -/
def record (ledger : Ledger) (log : AttemptLog) (failed : Bool) :
    Ledger × Except ReceiptOverflow Unit :=
  let settled := if log.opened.isSome then none else ledger.unresolved
  match (ledger.found log).elim (.ok ledger.report) ledger.report.credit with
  | .error overflow => ({ ledger with unresolved := settled }, .error overflow)
  | .ok report =>
    let unresolved := ledger.inFlight log failed
    match report.absorb log with
    | .error overflow => ({ report, unresolved }, .error overflow)
    | .ok report => ({ report, unresolved }, .ok ())

end Ledger

end Rdlt.Runs
