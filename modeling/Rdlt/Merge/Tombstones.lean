/-
  Rdlt.Merge.Tombstones

  What a change stream's table remembers of rows it removed outright, so that a
  change sequenced before their removal, arriving again later, never brings them
  back. A hard delete leaves the key's tombstone: its sequence.
-/

import Rdlt.Merge.Sparse
import Rdlt.Lib.Checked

namespace Rdlt.Merge

variable {D : Type} {key : MergeKey}

/-! ## Stored tombstones -/

abbrev KeyCells (D : Type) (key : MergeKey) := Fin key.columns.length → Cell D

/-- A stored tombstone: a removed key's values, or nulls for the bound, and the sequence. -/
structure Buried (D : Type) (key : MergeKey) where
  cells : KeyCells D key
  seq : Cell D

/-- Whether the tombstone names no key, as the bound's does. -/
def KeyCells.allNull (cells : KeyCells D key) : Bool :=
  (List.finRange key.columns.length).all fun index => (cells index).isNone

/-- The stored tombstones `batches` under the tombstone schema: the key's columns, then the
    sequence. -/
def storedUnder (key : MergeKey) (batches : List (Batch D)) : List (Buried D key) :=
  batches.flatMap fun batch => (List.range batch.numRows).map fun row =>
    { cells := fun index => batch.cell row (key.columns.get index), seq := batch.cell row key.seq }

/-- Tombstones as a batch of the tombstone schema. -/
def buriedBatch (rows : List (Buried D key)) : Batch D where
  fields := key.columns ++ [key.seq]
  rows := rows.map fun buried => List.ofFn buried.cells ++ [buried.seq]
  shaped := by
    intro row hrow
    obtain ⟨buried, -, rfl⟩ := List.mem_map.mp hrow
    simp

/-! ## Tombstones while changes apply -/

/-- Where a tombstone's key values come from: a row of the stored tombstones, or of the merge's
    sources. -/
inductive KeyCell where
  | stored (row : Nat)
  | incoming (place : At)

/-- One removed key: the sequence that removed it, and where its key values come from. -/
structure Stone where
  seq : Bytes
  key : KeyCell

/-- A table's tombstones while its changes apply. -/
structure Tombstones (D : Type) (key : MergeKey) where
  stored : List (Buried D key)
  byKey : Lib.OrdMap Bytes Stone
  /-- The sequence of the latest hard truncate: every row sequenced before it is gone. -/
  bound : Option Bytes
  /-- Whether the changes left the tombstones other than as they were stored. -/
  changed : Bool

def raisedTo (bound : Option Bytes) (seq : Bytes) : Bytes :=
  bound.elim seq (max · seq)

namespace Tombstones

section

variable (encode : KeyCells D key → Bytes) (tombstones : Tombstones D key)

/-- Reads the stored tombstone `row`, sequenced at `seq`: a bound above another, as two commits'
    truncates leave, is the table's. -/
def hold (entry : (Buried D key × Bytes) × Nat) : Tombstones D key :=
  let ((buried, seq), row) := entry
  if buried.cells.allNull then
    { tombstones with bound := some (raisedTo tombstones.bound seq) }
  else
    { tombstones with
      byKey := tombstones.byKey.insert (encode buried.cells) { seq, key := .stored row } }

def load (buried : List (Batch D)) : Except MergeError (Tombstones D key) := do
  let stored := storedUnder key buried
  let seqs ← stored.mapM fun buried => compared buried.seq
  pure (((stored.zip seqs).zipIdx).foldl (hold encode)
    { stored, byKey := ∅, bound := none, changed := false })

/-- Whether a change of `rowKey`, none for a truncate, sequenced at `seq` may apply: it is not
    sequenced before the bound, nor at or before its key's tombstone. -/
def admits (rowKey : Option Bytes) (seq : Bytes) : Bool :=
  let bounded := tombstones.bound.any fun bound => seq < bound
  let buried := (rowKey.bind fun rowKey => tombstones.byKey[rowKey]?).any fun stone =>
    seq ≤ stone.seq
  !bounded && !buried

/-- Records that `rowKey`, whose values the row `place` of the merge's sources holds, was removed
    at `seq`. -/
def bury (rowKey seq : Bytes) (place : At) : Tombstones D key :=
  { tombstones with
    byKey := tombstones.byKey.insert rowKey { seq, key := .incoming place }
    changed := true }

/-- Forgets `rowKey`'s tombstone: a row sequenced after it holds the key now. -/
def lift (rowKey : Bytes) : Tombstones D key :=
  { tombstones with
    byKey := tombstones.byKey.erase rowKey
    changed := tombstones.changed || tombstones.byKey.contains rowKey }

/-- Records a hard truncate at `seq`: the bound rises to it, which covers the tombstones before
    it; they go when the tombstones are assembled. -/
def raise (seq : Bytes) : Tombstones D key :=
  if tombstones.bound.any fun bound => seq ≤ bound then tombstones
  else { tombstones with bound := some seq, changed := true }

def uncovered (bound : Option Bytes) (seq : Bytes) : Bool :=
  bound.all fun bound => bound ≤ seq

/-- A stone's key values, of the stored tombstones or of the merge's sources. -/
def keyCells (sourceKey : At → KeyCells D key) : KeyCell → KeyCells D key
  | .stored row => (tombstones.stored[row]?).elim (fun _ => none) Buried.cells
  | .incoming place => sourceKey place

/-- The rows the tombstones are stored as: those the bound leaves, in key order, then the
    bound. -/
def rows (sourceKey : At → KeyCells D key) : List (Buried D key) :=
  let stones := tombstones.byKey.toList.filter fun entry => uncovered tombstones.bound entry.2.seq
  stones.map (fun entry =>
      { cells := tombstones.keyCells sourceKey entry.2.key, seq := some (.bytes entry.2.seq) })
    ++ tombstones.bound.toList.map fun bound =>
      { cells := fun _ => none, seq := some (.bytes bound) }

/-- The tombstones as batches of the tombstone schema; the stored ones themselves where the
    changes left them as they were. -/
def assemble (sourceKey : At → KeyCells D key) : List (Batch D) :=
  let rows := if tombstones.changed then tombstones.rows sourceKey else tombstones.stored
  [buriedBatch rows].filter fun batch => batch.numRows != 0

end

end Tombstones

end Rdlt.Merge
