/-
  Rdlt.Runs.Run

  A run of attempts over a destination that lands commits. An attempt opens a
  session, whose epoch is new, and finds the last commit that landed; or it
  fails to.
-/

import Rdlt.Runs.Ledger

namespace Rdlt.Runs

/-- An attempt in progress: what it recorded, the place of its next commit, and every receipt it
    accepted. -/
structure Attempt where
  log : AttemptLog := {}
  seq : Nat := 1
  accepted : List Receipt := []

structure Ended where
  log : AttemptLog
  accepted : List Receipt
  failed : Bool

/-- A run, and the destination it commits to: the epoch of its newest session and the receipts of
    the commits that landed, oldest first. -/
structure Run where
  ledger : Ledger := {}
  attempt : Option Attempt := none
  epoch : Epoch := 0
  landed : List Receipt := []
  /-- The attempts that ended, oldest first. -/
  history : List Ended := []
  /-- Whether a total overflowed. -/
  overflowed : Bool := false

inductive RunEvent where
  /-- An attempt starts. -/
  | start
  /-- The attempt opens its session. -/
  | opens
  /-- A session of another run opens. -/
  | fences
  /-- The attempt begins a commit of what each stream contributed. -/
  | begins (streams : Streams)
  /-- A commit lands at the destination. -/
  | lands (receipt : Receipt)
  /-- The answer to the attempt's commit arrives: its receipt. -/
  | answers (receipt : Receipt)
  /-- The attempt ends, failed or not. -/
  | ends (failed : Bool)

namespace Run

/-- The attempt once its commit's answer arrived: it records the commit, and goes on to the next. A
    total that overflowed counts nothing more. -/
def recorded (attempt : Attempt) (pending : Pending) (receipt : Receipt) : Attempt × Bool :=
  let log := { attempt.log with pending := none }
  let attempt :=
    { attempt with log, seq := attempt.seq + 1, accepted := attempt.accepted ++ [receipt] }
  match log.committed.add { receipt, streams := pending.streams } with
  | .ok committed => ({ attempt with log := { log with committed } }, false)
  | .error _ => (attempt, true)

/-- The run once `event` happens; none where it cannot. -/
def step (run : Run) : RunEvent → Option Run
  | .start =>
    match run.attempt with
    | none => some { run with attempt := some {} }
    | some _ => none
  | .opens =>
    match run.attempt with
    | some attempt =>
      if attempt.log.opened.isNone then
        some { run with
          epoch := run.epoch + 1
          attempt := some { attempt with
            log := { attempt.log with opened := some (run.epoch + 1, run.landed.getLast?) } } }
      else none
    | none => none
  | .fences => some { run with epoch := run.epoch + 1 }
  | .begins streams =>
    match run.attempt with
    | some attempt =>
      match attempt.log.opened, attempt.log.pending with
      | some (epoch, _), none =>
        some { run with
          attempt := some { attempt with
            log := { attempt.log with
              pending := some { key := { epoch, seq := attempt.seq }, streams } } } }
      | _, _ => none
    | none => none
  | .lands receipt =>
    if receipt.key ∈ run.landed.map Receipt.key then none
    else some { run with landed := run.landed ++ [receipt] }
  | .answers receipt =>
    match run.attempt with
    | some attempt =>
      match attempt.log.pending with
      | some pending =>
        if receipt ∈ run.landed ∧ receipt.key = pending.key then
          let (attempt, overflowed) := recorded attempt pending receipt
          some { run with
            attempt := some attempt
            overflowed := run.overflowed || overflowed }
        else none
      | none => none
    | none => none
  | .ends failed =>
    match run.attempt with
    | some attempt =>
      let (ledger, result) := run.ledger.record attempt.log failed
      some { run with
        ledger
        attempt := none
        history := run.history ++
          [{ log := attempt.log, accepted := attempt.accepted, failed }]
        overflowed := run.overflowed || result.toOption.isNone }
    | none => none

def run (start : Run) (events : List RunEvent) : Option Run := events.foldlM step start

def nextOpened (later : List Ended) : Option Ended :=
  later.find? fun ended => ended.log.opened.isSome

end Run

/-- The key of the last commit that had landed when an attempt opened. -/
def Ended.finds (ended : Ended) : Option CommitKey :=
  ended.log.opened.bind fun opened => opened.2.map Receipt.key

end Rdlt.Runs
