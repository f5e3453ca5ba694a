/-
  Rdlt.Engine.Staging

  Which rows of a flush a normalized merge stream stages.
-/

import Rdlt.Connector.Batch
import Rdlt.Lib.Group
import Rdlt.Lib.Runs

namespace Rdlt.Engine

open Lib

variable {α τ : Type}

/-! ## Sequences -/

def beBytes : Nat → Nat → Bytes
  | 0, _ => []
  | width + 1, n => Fin.ofNat 256 (n / 256 ^ width) :: beBytes width (n % 256 ^ width)

/-- A row's sequence in a merge table: its segment, then its position among the segment's rows. -/
def sequence (segment position : Nat) : Bytes := beBytes 8 segment ++ beBytes 8 position

/-! ## The last row of each key -/

/-- Which rows of a batch are the last of their key: the rows a merge keeps. -/
def lastOfEachKey (keys : List Bytes) : List Bool :=
  setBits (List.replicate keys.length false) (lastOfRuns keys)

/-- A batch's key columns: their types, and each row's key, comparable with those of its types. -/
structure KeyBatch (τ : Type) where
  types : τ
  keys : List Bytes
  deriving DecidableEq, Repr

/-- Each of `batches` with the place of its first row among every batch's rows. -/
def firsts (first : Nat) : List (KeyBatch τ) → List (KeyBatch τ × Nat)
  | [] => []
  | batch :: batches => (batch, first) :: firsts (first + batch.keys.length) batches

/-- The places, among every batch's rows, of the last row of each key of `members`, batches whose
    keys are of one type. -/
def lastAlike (members : List (KeyBatch τ × Nat)) : List Nat :=
  let rows := members.flatMap fun member => member.1.keys
  let places := members.flatMap fun member => List.range' member.2 member.1.keys.length
  (lastOfRuns rows).filterMap fun row => places[row]?

/-- Which rows of `batches` are the last of their key: a bit for each row in order, set where no
    later one holds the same key. The rows of each type are compared apart. -/
def lastAcross [LinearOrder τ] (batches : List (KeyBatch τ)) : List Bool :=
  let alike := group (fun member => member.1.types) (firsts 0 batches)
  let total := (batches.map fun batch => batch.keys.length).sum
  alike.toList.foldl (fun last members => setBits last (lastAlike members.2))
    (List.replicate total false)

/-! ## What a flush found -/

/-- Which root rows of each piece of a flush it stages: each piece's bits, until the piece takes
    them; none where each table keeps what its own merge keeps. -/
structure Staged where
  pieces : List (Option (List Bool))
  deriving DecidableEq, Repr

namespace Staged

def take (staged : Staged) (piece : Nat) : Option (List Bool) × Staged :=
  ((staged.pieces[piece]?).join, { pieces := staged.pieces.set piece none })

/-- Gives up the bits no piece has taken: those pieces each keep what their own merge keeps. -/
def giveUp (staged : Staged) : Staged := { pieces := staged.pieces.map fun _ => none }

end Staged

/-- `last` cut into the bits of pieces of `rows` root rows each. -/
def slices (last : List Bool) : List Nat → List (Option (List Bool))
  | [] => []
  | rows :: rest => some (last.take rows) :: slices (last.drop rows) rest

/-- Which root rows a flush stages, the keys of its pieces' batches being `pieces`: those no later
    row shares a key with, where it `compares` them, as it does where its budget has room and no key
    holds a null or a NaN. -/
def staged [LinearOrder τ] (compares : Bool) (pieces : List (List (KeyBatch τ))) : Staged :=
  let rows := pieces.map fun batches => (batches.map fun batch => batch.keys.length).sum
  if compares then { pieces := slices (lastAcross pieces.flatten) rows }
  else { pieces := pieces.map fun _ => none }

/-- The bits each of `left` pieces from `piece` on takes. A piece there is no room for at once
    waits, which the flush does only once it has given up what it found. -/
def takeEach (waits : Nat → Bool) : Staged → (piece left : Nat) → List (Option (List Bool))
  | _, _, 0 => []
  | staged, piece, left + 1 =>
    let staged := if waits piece then staged.giveUp else staged
    let taken := staged.take piece
    taken.1 :: takeEach waits taken.2 (piece + 1) left

/-! ## What a table's merges keep -/

def masked (rows : List α) (bits : List Bool) : List α :=
  ((rows.zip bits).filter Prod.snd).map Prod.fst

/-- The rows of `part` its table stages, each with the position of its root row: those descending
    from the root rows the flush says it stages, in every table; otherwise the last row of each key,
    or every row where the table does not compact. -/
def merged (compacts : Bool) (key : α → Bytes) (staging : Option (List Bool))
    (part : List (α × Nat)) : List (α × Nat) :=
  match staging with
  | some staged => part.filter fun row => (staged[row.2]?).getD false
  | none =>
    if compacts then masked part (lastOfEachKey (part.map fun row => key row.1)) else part

end Rdlt.Engine
