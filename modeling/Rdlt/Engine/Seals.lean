/-
  Rdlt.Engine.Seals

  What a partition's read hands the commit coordinator.
-/

import Rdlt.Connector.Segments
import Rdlt.Connector.State
import Rdlt.Engine.Discards

namespace Rdlt.Engine

/-! ## Seals -/

/-- What shredding a segment's JSON took. -/
structure ShredCounts where
  parsed : Nat := 0
  tripped : Nat := 0
  observed : Nat := 0
  rebuilt : Nat := 0
  exact : Nat := 0
  deriving DecidableEq, Repr

structure FilteredRows where
  dropped : Nat := 0
  deleted : Nat := 0
  deriving DecidableEq, Repr

structure Counts where
  rows : Nat := 0
  bytes : Nat := 0
  discardedRows : Nat := 0
  discardedValues : Nat := 0
  /-- What the schema policy discarded, by table, column and reason. -/
  discards : ColumnDiscards := .empty
  deletesIgnored : Nat := 0
  truncatesIgnored : Nat := 0
  shred : ShredCounts := {}
  filtered : FilteredRows := {}
  deriving DecidableEq, Repr

/-- A sealed segment: what was written to it, and where to resume after it. -/
structure Seal where
  /-- The partition's index in the attempt. -/
  partition : Nat
  segment : SegmentId
  state : PartitionState
  /-- The barrier this seal answers. -/
  answers : Option Nat := none
  counts : Counts := {}
  deriving DecidableEq, Repr

/-- Whether the seal moves its partition's position and nothing else: no row, discard, ignored
    change or filtered row is its segment's. -/
def Seal.movesOnly (sent : Seal) : Bool :=
  [sent.counts.rows, sent.counts.bytes, sent.counts.discardedRows, sent.counts.discardedValues,
    sent.counts.deletesIgnored, sent.counts.truncatesIgnored, sent.counts.filtered.dropped,
    sent.counts.filtered.deleted] == [0, 0, 0, 0, 0, 0, 0, 0]

/-- What a partition tells the coordinator, of what moves its seals. -/
inductive Progress where
  | started (partition : Nat)
  | sealed (sent : Seal)
  /-- The partition has a seal of no rows waiting, queued in this epoch of its seals. -/
  | moved (partition epoch : Nat)
  /-- Rows were staged to a segment no commit will take. -/
  | abandoned (partition : Nat) (segment : SegmentId)
  | ended (partition : Nat) (stopped : Bool)
  deriving DecidableEq, Repr

/-! ## The mailbox -/

/-- What one partition last said and the coordinator has not taken. -/
structure Waiting where
  /-- The newest seal of no rows. -/
  newest : Option Seal := none
  /-- How many seals with rows the partition has sent. -/
  epoch : Nat := 0
  /-- The epoch of the queued message telling the coordinator a seal waits. -/
  sealTold : Option Nat := none
  deriving DecidableEq, Repr

/-- What each partition last said, until the coordinator takes it. -/
abbrev Latest := Lib.OrdMap Nat Waiting

/-- The greater of two barriers, either of which may be none. -/
def later (left right : Option Nat) : Option Nat :=
  match left, right with
  | some left, some right => some (max left right)
  | some left, none => some left
  | none, right => right

namespace Latest

def waiting (latest : Latest) (partition : Nat) : Waiting := latest.getD partition {}

/-- Keeps `sent`, which sealed no rows, as its partition's newest, in place of any that waits, whose
    barrier it answers too; with the epoch to tell the coordinator of, where none queued says a seal
    waits. -/
def moved (latest : Latest) (sent : Seal) : Option Nat × Latest :=
  let waiting := latest.waiting sent.partition
  let answers := later sent.answers (waiting.newest.bind Seal.answers)
  let told := if waiting.sealTold = some waiting.epoch then none else some waiting.epoch
  (told, latest.insert sent.partition
    { waiting with newest := some { sent with answers }, sealTold := some waiting.epoch })

/-- Starts `partition`'s next epoch, as it sends a seal with rows: drops the seal of no rows it has
    waiting, with the barrier that one answered. -/
def superseded (latest : Latest) (partition : Nat) : Option Nat × Latest :=
  let waiting := latest.waiting partition
  (waiting.newest.bind Seal.answers,
    latest.insert partition { waiting with newest := none, epoch := waiting.epoch + 1 })

/-- Takes the seal of no rows `partition` has waiting, for a message queued in `epoch`; none where
    the partition sent a seal with rows since. -/
def takeSeal (latest : Latest) (partition epoch : Nat) : Option Seal × Latest :=
  let waiting := latest.waiting partition
  if waiting.epoch ≠ epoch then (none, latest)
  else (waiting.newest, latest.insert partition { waiting with newest := none, sealTold := none })

end Latest

/-- Reports `sent`, a checkpoint's: a seal of no rows waits as its partition's newest, in place of
    any before it, and a seal with rows joins the coordinator's queue. -/
def sealSegment (latest : Latest) (queue : List Progress) (sent : Seal) : Latest × List Progress :=
  if sent.movesOnly then
    let moved := latest.moved sent
    match moved.1 with
    | some epoch => (moved.2, queue ++ [.moved sent.partition epoch])
    | none => (moved.2, queue)
  else
    -- The position it carries is newer than a waiting seal's of no rows, which it replaces.
    let superseded := latest.superseded sent.partition
    (superseded.2, queue ++ [.sealed { sent with answers := later sent.answers superseded.1 }])

/-! ## Waiting seals -/

structure Counted where
  partition : Nat
  segment : SegmentId
  counts : Counts
  deriving DecidableEq, Repr

/-- Where a partition stands once the seals waiting are committed. -/
structure Standing where
  position : PartitionState
  /-- The cursor before a position of done, which the partition's source is told. -/
  before : Option Cursor
  deriving DecidableEq, Repr

/-- The cursor the partition's source is told once the seals are committed. -/
def Standing.told (standing : Standing) : Option Cursor :=
  match standing.position with
  | .cursor cursor => some cursor
  | .done => standing.before

/-- Seals as they arrive, until a commit takes them. -/
structure WaitingSeals where
  counted : List Counted := []
  standing : Lib.OrdMap Nat Standing := ∅

def stood (state : PartitionState) (earlier : Option Standing) : Standing :=
  match state, earlier with
  | .done, some earlier => { position := .done, before := earlier.told }
  | position, _ => { position, before := none }

/-- Adds `sent`: its counts, unless it counts nothing, and its position in place of its
    partition's. -/
def WaitingSeals.push (waiting : WaitingSeals) (sent : Seal) : WaitingSeals where
  counted :=
    if !sent.movesOnly || sent.counts.shred ≠ {} then
      waiting.counted ++ [{ partition := sent.partition, segment := sent.segment,
                            counts := sent.counts }]
    else waiting.counted
  standing := waiting.standing.insert sent.partition
    (stood sent.state waiting.standing[sent.partition]?)

end Rdlt.Engine
