/-
  Rdlt.Engine.Coordinator.Acks

  Telling the source the cursors a landed commit holds. A cursor whose report
  failed is owed: a later report carries it, or a newer cursor of its partition
  in its place.
-/

import Rdlt.Engine.Coordinator.Commit

namespace Rdlt.Engine

open Lib

/-! ## Reports -/

/-- Where a commit falls among its attempt's commits. -/
inductive Turn where
  /-- More commits may follow. -/
  | within
  /-- The attempt's last: every partition has ended, and no phase follows. -/
  | last
  deriving DecidableEq, Repr

/-- How a report to a stream's source ends; `unsent` where the source never sent the cursor. -/
inductive Reply where
  | told
  | failed (unsent : Bool)
  | cancelled
  deriving DecidableEq, Repr

/-- A report made to a stream's source: the cursors it carried, and how it ended. -/
structure Report where
  stream : Nat
  cursors : List (PartitionId × Cursor)
  reply : Reply
  deriving DecidableEq, Repr

def Owed.owe (owed : Owed) (stream : Nat) (id : PartitionId) (cursor : Cursor)
    (state : PartitionState) : Owed :=
  let partitions := owed.getD stream ∅
  owed.insert stream (partitions.insert id
    { cursor, done := state = .done, failures := (partitions[id]?).elim 0 Owing.failures })

/-- An owed cursor once a report carrying it failed: none where it is given up. -/
def Owing.failedReport (owing : Owing) (unsent : Bool) (turn : Turn) (attempts : Nat) :
    Option Owing :=
  let failures := min (owing.failures + 1) (2 ^ 32 - 1)
  let spent := turn = .last ∨ attempts ≤ failures
  if owing.done ∧ (spent ∨ unsent) then none else some { owing with failures }

/-- Whether an owed cursor, a report carrying it having failed, ends the attempt. -/
def Owing.ends (owing : Owing) (turn : Turn) (attempts : Nat) : Bool :=
  (turn = .last ∨ attempts ≤ min (owing.failures + 1) (2 ^ 32 - 1)) ∧ ¬ owing.done

/-- What reporting leaves: the cursors still owed, the reports made, and whether the attempt
    ends. -/
structure Reported where
  owed : Owed := ∅
  reports : List Report := []
  ended : Bool := false

/-- Tells each stream's source, in one report, the cursors it is owed; `replies` are how its reports
    end, and `attempts` failed in a row exhaust a partition's. A cancel ends the reporting. -/
def report (replies : Nat → Reply) (turn : Turn) (attempts : Nat) :
    List (Nat × OrdMap PartitionId Owing) → Reported
  | [] => {}
  | (stream, owed) :: rest =>
    let made : Report :=
      { stream, cursors := owed.toList.map fun entry => (entry.1, entry.2.cursor)
        reply := replies stream }
    match replies stream with
    | .cancelled => { reports := [made], ended := true }
    | .told =>
      let rest := report replies turn attempts rest
      { rest with reports := made :: rest.reports }
    | .failed unsent =>
      let kept := owed.filterMap fun _ owing => owing.failedReport unsent turn attempts
      let rest := report replies turn attempts rest
      { owed := if kept.isEmpty then rest.owed else rest.owed.insert stream kept
        reports := made :: rest.reports
        ended := rest.ended || owed.toList.any fun entry => entry.2.ends turn attempts }

namespace Coordinator

/-- The cursors owed once those in `reported`, which a commit that landed with `positions` holds,
    are. -/
def owing (c : Coordinator) (reported : OrdMap Nat Cursor)
    (positions : OrdMap Nat PartitionState) : Owed :=
  reported.toList.foldl
    (fun owed entry =>
      match c.partitions[entry.1]?, positions[entry.1]? with
      | some run, some state => owed.owe run.stream run.id entry.2 state
      | _, _ => owed)
    c.owed

/-- Tells each stream's source the cursors it is owed: those in `reported`, of a commit that landed
    with `positions`, and those of reports that failed. -/
def acknowledge (c : Coordinator) (reported : OrdMap Nat Cursor)
    (positions : OrdMap Nat PartitionState) (turn : Turn) (replies : Nat → Reply)
    (attempts : Nat) : Reported :=
  report replies turn attempts (c.owing reported positions).toList

/-- Where a commit falls: one made once every partition has ended is the attempt's last, unless a
    phase that ended may start another. -/
def turn (c : Coordinator) (atEnd : Bool) : Turn :=
  if atEnd ∧ (c.stopping ∨ ¬ (List.range c.streams.length).any c.phaseEnded) then .last
  else .within

end Coordinator

end Rdlt.Engine
