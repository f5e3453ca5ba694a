/-
  Rdlt.Engine.Lane

  A lane: long-lived destination writers that stage batches in order.
-/

import Rdlt.Connector.Commit
import Rdlt.Connector.Schema
import Rdlt.Lib.Checked
import Rdlt.Lib.Saturating

namespace Rdlt.Engine.Lanes

/-! ## What is queued -/

/-- A table's writer for one schema version: the table's place, and the version. -/
abbrev WriterKey := Nat ×ₗ SchemaVersion

instance WriterKey.transCmp : Std.TransCmp (@compare WriterKey LinearOrder.toOrd) := inferInstance

/-- A batch for one table, tagged with its segment and the schema version it was lowered for. -/
structure Write (B : Type) where
  table : Nat
  version : SchemaVersion
  segment : SegmentId
  batch : B

def Write.key {B : Type} (write : Write B) : WriterKey := toLex (write.table, write.version)

inductive Message (B : Type) where
  | write (write : Write B)
  /-- The commit that queued it waits for its answer. -/
  | flush

/-! ## The lane -/

/-- What a lane does, in order. A writer is told apart from others of its key by a number, and a
    message named by its place in what was queued. -/
inductive Act where
  | opened (writer : Nat) (key : WriterKey)
  | wrote (message writer : Nat)
  | flushed (writer : Nat)
  | closed (writer : Nat)
  /-- The reservation of a write is released. -/
  | released (message : Nat)
  /-- A commit's flush is answered. -/
  | answered (message : Nat)
  deriving DecidableEq

/-- An open writer, and the count of the lane's writes when it was last written. -/
structure Open where
  writer : Nat
  used : Nat

structure Lane where
  writers : Lib.OrdMap WriterKey Open := ∅
  /-- The writers written since the last flush. -/
  written : Lib.OrdMap WriterKey Unit := ∅
  /-- The writes whose reservations it holds. -/
  held : List Nat := []
  /-- The most writers the lane holds open. -/
  share : Nat
  /-- How many writes it took, so the writer written longest ago is found. -/
  writes : Nat := 0
  /-- How many messages it took. -/
  taken : Nat := 0
  /-- How many writers it opened, and how many calls into the destination it made. -/
  opens : Nat := 0
  calls : Nat := 0
  trace : List Act := []

namespace Lane

variable (fails : Nat → Bool)

section

variable (lane : Lane)

def call : Except Lane Lane :=
  if fails lane.calls then .error lane else .ok { lane with calls := lane.calls + 1 }

def flush (writer : Nat) : Except Lane Lane := do
  let lane ← lane.call fails
  .ok { lane with trace := lane.trace ++ [.flushed writer] }

/-- Closes the writer at `key`, having flushed what it was written since the last flush; what the
    writes held is released at the lane's next flush. -/
def retire (key : WriterKey) : Except Lane Lane :=
  match lane.writers[key]? with
  | none => .ok lane
  | some opened => do
      let flushed ←
        if key ∈ lane.written then
          flush fails { lane with written := lane.written.erase key } opened.writer
        else .ok lane
      .ok { flushed with
        writers := flushed.writers.erase key
        trace := flushed.trace ++ [.closed opened.writer] }

def oldest : Option WriterKey :=
  (lane.writers.toList.argmin fun entry => entry.2.used).map Prod.fst

/-- Retires the writer written longest ago where the lane has no room for another, unless that of
    `key` is open. -/
def makeRoom (key : WriterKey) : Except Lane Lane :=
  if key ∉ lane.writers ∧ lane.share ≤ lane.writers.size then
    lane.oldest.elim (.ok lane) (lane.retire fails)
  else .ok lane

def writer (lane : Lane) (key : WriterKey) : Except Lane (Lane × Nat) := do
  let lane ← makeRoom fails { lane with writes := Lib.saturatingAdd lane.writes 1 } key
  match lane.writers[key]? with
  | some opened =>
    .ok ({ lane with writers := lane.writers.insert key { opened with used := lane.writes } },
      opened.writer)
  | none => do
      let lane ← lane.call fails
      .ok
        ({ lane with
            writers := lane.writers.insert key { writer := lane.opens, used := lane.writes }
            opens := lane.opens + 1
            trace := lane.trace ++ [.opened lane.opens key] },
          lane.opens)

def older (key : WriterKey) : List WriterKey :=
  (lane.writers.toList.map Prod.fst).filter fun other =>
    (ofLex other).1 = (ofLex key).1 ∧ (ofLex other).2 < (ofLex key).2

/-- Stages the write of the message at `message` with its table's writer, which then holds what the
    write held; the table's writers of older versions are retired first. -/
def stage {B : Type} (lane : Lane) (message : Nat) (write : Write B) : Except Lane Lane := do
  let lane ← (lane.older write.key).foldlM (retire fails) lane
  let (lane, writer) ← lane.writer fails write.key
  let lane ← lane.call fails
  .ok { lane with
    trace := lane.trace ++ [.wrote message writer]
    written := lane.written.insert write.key ()
    held := lane.held ++ [message] }

/-- Flushes every writer written since the last flush, then releases what their writes held. -/
def flushWritten : Except Lane Lane := do
  let lane ← (lane.written.toList.map Prod.fst).foldlM
    (fun lane key =>
      match lane.writers[key]? with
      | none => .ok lane
      | some opened => lane.flush fails opened.writer)
    { lane with written := ∅ }
  .ok { lane with trace := lane.trace ++ lane.held.map .released, held := [] }

end

end Lane

/-! ## Runs -/

/-- What a lane does next: takes the next message queued, or flushes as a request waits for
    memory. -/
inductive Turn where
  | next
  | pressure
  deriving DecidableEq, Repr

namespace Lane

variable {B : Type} (fails : Nat → Bool) (queued : List (Message B))

/-- The lane after one turn; where nothing is queued, or it holds nothing, it waits. -/
def step (lane : Lane) : Turn → Except Lane Lane
  | .pressure => if lane.held = [] then .ok lane else lane.flushWritten fails
  | .next =>
    match queued[lane.taken]? with
    | none => .ok lane
    | some (.write write) => do
        let lane ← lane.stage fails lane.taken write
        .ok { lane with taken := lane.taken + 1 }
    | some .flush => do
        let lane ← lane.flushWritten fails
        .ok { lane with taken := lane.taken + 1, trace := lane.trace ++ [.answered lane.taken] }

def run (lane : Lane) (turns : List Turn) : Except Lane Lane :=
  turns.foldlM (step fails queued) lane

end Lane

end Rdlt.Engine.Lanes
