/-
  Rdlt.Connector.Commit

  What a commit publishes and what a destination acknowledges, and how a
  destination answers a commit by the row it keeps of the pipeline: its newest
  session's epoch and the receipt of the last commit that landed.
-/

import Rdlt.Connector.Error

namespace Rdlt

/-! ## Ids -/

abbrev PipelineId := String

/-- The epoch of a session: a 64-bit number, 0 before the first. -/
abbrev Epoch := Nat

def Epoch.next (epoch : Epoch) : Option Epoch :=
  if epoch + 1 < 2 ^ 64 then some (epoch + 1) else none

abbrev SegmentId := Nat

abbrev GenerationId := Nat

/-- A logical table's path, its root first. -/
abbrev TablePath := List String

/-! ## Segment sets -/

/-- An inclusive run of consecutive segment ids. -/
structure SegmentRange where
  first : SegmentId
  last : SegmentId
  deriving DecidableEq, Repr

/-- A set of segment ids, stored as sorted, disjoint, non-adjacent ranges. -/
structure SegmentSet where
  ranges : List SegmentRange
  runs : ∀ range ∈ ranges, range.first ≤ range.last
  ordered : ranges.Pairwise fun left right => left.last + 1 < right.first
  deriving DecidableEq, Repr

namespace SegmentSet

def new : SegmentSet := { ranges := [], runs := by simp, ordered := .nil }

def contains (set : SegmentSet) (id : SegmentId) : Bool :=
  (set.ranges.dropWhile fun range => range.last < id).head?.any fun range => range.first ≤ id

end SegmentSet

/-! ## Commits -/

/-- A commit's key: the epoch of the session that makes it and its place among that session's
    commits, from 1. -/
structure CommitKey where
  epoch : Epoch
  seq : Nat
  deriving DecidableEq, Repr

namespace CommitKey

def Before (left right : CommitKey) : Prop :=
  left.epoch < right.epoch ∨ (left.epoch = right.epoch ∧ left.seq < right.seq)

instance (left right : CommitKey) : Decidable (left.Before right) := by
  unfold Before
  infer_instance

def text (key : CommitKey) : String :=
  let seq := key.seq
  let epoch := key.epoch
  s!"commit {seq} of epoch {epoch}"

end CommitKey

/-- A change a commit applies to the stored state, of records keyed by text. -/
inductive StateChange (V : Type) where
  | put (key : String) (record : V)
  | delete (key : String)
  deriving DecidableEq, Repr

/-- A child table of a merge table, as a commit lists it. -/
structure ChildTable where
  table : String
  merge : Merge.MergeKey
  deriving DecidableEq, Repr

structure DroppedTable where
  path : TablePath
  name : String
  deriving DecidableEq, Repr

/-- Everything one commit publishes: sealed segments and the state they imply. -/
structure CommitMeta (V : Type) where
  key : CommitKey
  /-- The key of the commit the session expects the destination to hold landed. -/
  after : Option CommitKey
  segments : SegmentSet
  /-- Segments of the load the engine abandoned since its last commit, never sealed. -/
  abandoned : SegmentSet
  stateDelta : List (StateChange V)
  finishGenerations : List (TablePath × GenerationId)
  childTables : List ChildTable
  dropTables : List DroppedTable
  deriving DecidableEq

/-- A destination's acknowledgment of a commit. -/
structure Receipt where
  key : CommitKey
  committedAt : Nat
  rows : Nat
  bytes : Nat
  deriving DecidableEq, Repr

/-! ## The landed key -/

/-- A pipeline's fence row: the epoch of its newest session and the receipt of the last commit
    that landed. -/
structure Fence where
  epoch : Epoch
  landed : Option Receipt
  deriving DecidableEq, Repr

/-- How a destination answers a commit, by its fence row. -/
inductive Answer where
  | landed (receipt : Receipt)
  | fenced
  | stale
  | apply
  deriving DecidableEq, Repr

/-- How a destination whose fence row is `fence` answers the commit keyed `key` that expects
    `after` landed. -/
def answer (fence : Fence) (key : CommitKey) (after : Option CommitKey) : Answer :=
  match fence.landed.filter fun receipt => receipt.key == key with
  | some receipt => .landed receipt
  | none =>
    if fence.epoch != key.epoch then .fenced
    else if fence.landed.map Receipt.key != after then .stale
    else .apply

/-- A key as a message names it. -/
def shown (key : Option CommitKey) : String :=
  key.elim "no commit" CommitKey.text

/-- What a destination does with a commit before it publishes anything: the receipt of one that
    landed already, or none for one to apply. -/
def Fence.decide {V : Type} (fence : Fence) (commit : CommitMeta V) :
    Except ConnectorError (Option Receipt) :=
  match answer fence commit.key commit.after with
  | .landed receipt => .ok (some receipt)
  | .apply => .ok none
  | .fenced =>
    let epoch := fence.epoch
    let past := commit.key.epoch
    .error (ConnectorError.fenced s!"the pipeline is at epoch {epoch}, past the commit's {past}")
  | .stale =>
    let sent := commit.key.text
    let expected := shown commit.after
    let landed := shown (fence.landed.map Receipt.key)
    .error ((ConnectorError.fenced
      s!"{sent} expects {expected} landed, and {landed} did").withCode "commit_stale")

end Rdlt
