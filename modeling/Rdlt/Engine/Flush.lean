/-
  Rdlt.Engine.Flush

  A flush of a normalized merge stream, as its root table and a child table
  receive it: pieces of batches whose keys are of one type, each piece's parts
  cut again by table, and every row lowered with its root's id and a sequence of
  its root's position.
-/

import Rdlt.Engine.Staging
import Rdlt.Merge.Children

namespace Rdlt.Engine

open Merge

variable {D τ : Type}

/-! ## The stream's tables -/

/-- A normalized merge stream, as far as a child table and the root it follows go: `stored` is a
    key of some types as the root table stores it, `encode` the bytes stored keys compare by, and
    `idOf` a root's id, which the types of its key and the bytes it is stored under give. -/
structure Normalized (τ D : Type) where
  root : Schema
  key : MergeKey
  child : Schema
  childKey : MergeKey
  /-- The root's columns the child table follows. -/
  rootKey : RootKey
  /-- The child's column that holds its root's id. -/
  owner : String
  stored : τ → Bytes → KeyCells D key
  encode : KeyCells D key → Bytes
  idOf : τ → Bytes → Bytes
  rootNamed : root.Nodup
  childNamed : child.Nodup
  rootSeq : rootKey.seq = key.seq
  rootHolds : key.seq ∈ root ∧ rootKey.id ∈ root ∧ ∀ column ∈ key.columns, column ∈ root
  keyNamed : key.columns.Nodup
  keyApart : key.seq ∉ key.columns ∧ rootKey.id ∉ key.columns ∧ rootKey.id ≠ key.seq
  childOwner : childKey.columns.head? = some owner
  childHolds : owner ∈ child ∧ childKey.seq ∈ child ∧ owner ≠ childKey.seq

/-- The id of the root of a key. -/
def Normalized.rootId (N : Normalized τ D) (types : τ) (key : Bytes) : Bytes :=
  N.idOf types (N.encode (N.stored types key))

/-! ## Pieces -/

/-- A root row as it arrives: its key, comparable with those of its types, and its other cells as
    they lower. -/
structure RootRow (D : Type) (schema : Schema) where
  key : Bytes
  row : Row D schema

/-- A piece of a flush: batches whose key columns are of one type, split into the root table's part
    and a child table's, each cut into batches, and each row with the position of its root row. -/
structure Piece (N : Normalized τ D) where
  types : τ
  batches : List (List (RootRow D N.root))
  roots : List (List (RootRow D N.root × Nat))
  children : List (List (Row D N.child × Nat))
  /-- A root row's root is itself. -/
  cut : roots.flatten = batches.flatten.zipIdx
  descends : ∀ part ∈ children, ∀ row ∈ part, row.2 < batches.flatten.length

namespace Piece

variable {N : Normalized τ D}

def rows (piece : Piece N) : List (RootRow D N.root) := piece.batches.flatten

def keys (piece : Piece N) : List (KeyBatch τ) :=
  piece.batches.map fun batch => { types := piece.types, keys := batch.map RootRow.key }

def idAt (piece : Piece N) (position : Nat) : Bytes :=
  (piece.rows[position]?).elim [] fun row => N.rootId piece.types row.key

end Piece

/-! ## Lowering -/

namespace Normalized

variable (N : Normalized τ D)

/-- A root row as its table stores it, its sequence being `seq`. -/
def lowerRoot (types : τ) (root : RootRow D N.root) (seq : Bytes) : Row D N.root := fun column =>
  let name := N.root.get column
  if name = N.key.seq then some (.bytes seq)
  else if name = N.rootKey.id then some (.bytes (N.rootId types root.key))
  else
    match N.key.columns.finIdxOf? name with
    | some index => N.stored types root.key index
    | none => root.row column

/-- A child row as its table stores it, its root's id being `id` and its sequence `seq`. -/
def lowerChild (id seq : Bytes) (row : Row D N.child) : Row D N.child := fun column =>
  let name := N.child.get column
  if name = N.childKey.seq then some (.bytes seq)
  else if name = N.owner then some (.bytes id)
  else row column

def storedKey (types : τ) (root : RootRow D N.root) : Bytes := N.encode (N.stored types root.key)

end Normalized

/-- Rows as a batch of every column of their table. -/
def prepared {schema : Schema} (rows : List (Row D schema)) : Batch D :=
  heldBatch (List.finRange schema.length) rows

/-! ## Flushes -/

/-- A flush: its pieces are written to one segment, whose next row is `firstRow`. -/
structure Flush (N : Normalized τ D) where
  segment : Nat
  firstRow : Nat
  pieces : List (Piece N)
  /-- Every row's position is a 64-bit number. -/
  fits : firstRow + (pieces.map fun piece => piece.rows.length).sum ≤ 2 ^ 64

def stamped {N : Normalized τ D} (first : Nat) : List (Piece N) → List (Piece N × Nat)
  | [] => []
  | piece :: pieces => (piece, first) :: stamped (first + piece.rows.length) pieces

namespace Flush

variable {N : Normalized τ D} (flush : Flush N)

def lowerRoots (piece : Piece N) (first : Nat) (part : List (RootRow D N.root × Nat)) :
    List (Row D N.root) :=
  part.map fun row =>
    N.lowerRoot piece.types row.1 (sequence flush.segment (first + row.2))

/-- Rows of a piece's child part, lowered: a child row's sequence is its root row's. -/
def lowerChildren (piece : Piece N) (first : Nat) (part : List (Row D N.child × Nat)) :
    List (Row D N.child) :=
  part.map fun row =>
    N.lowerChild (piece.idAt row.2) (sequence flush.segment (first + row.2)) row.1

def everyRoot : List (Batch D) :=
  (stamped flush.firstRow flush.pieces).flatMap fun stamped =>
    stamped.1.roots.map fun part => prepared (flush.lowerRoots stamped.1 stamped.2 part)

def everyChild : List (Batch D) :=
  (stamped flush.firstRow flush.pieces).flatMap fun stamped =>
    stamped.1.children.map fun part => prepared (flush.lowerChildren stamped.1 stamped.2 part)

variable [LinearOrder τ]

section

variable (compares : Bool) (waits : Nat → Bool)

def stagings : List (Option (List Bool)) :=
  takeEach waits (staged compares (flush.pieces.map Piece.keys)) 0 flush.pieces.length

/-- The root table's batches of the rows the flush stages. -/
def stagedRoots : List (Batch D) :=
  ((stamped flush.firstRow flush.pieces).zip (flush.stagings compares waits)).flatMap
    fun staging => staging.1.1.roots.map fun part =>
      prepared (flush.lowerRoots staging.1.1 staging.1.2
        (merged true (N.storedKey staging.1.1.types) staging.2 part))

/-- The child table's batches of the rows the flush stages. -/
def stagedChildren : List (Batch D) :=
  ((stamped flush.firstRow flush.pieces).zip (flush.stagings compares waits)).flatMap
    fun staging => staging.1.1.children.map fun part =>
      prepared (flush.lowerChildren staging.1.1 staging.1.2
        (merged false (fun _ => []) staging.2 part))

end

end Flush

end Rdlt.Engine
