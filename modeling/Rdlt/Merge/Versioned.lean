/-
  Rdlt.Merge.Versioned

  What a history table is for one key: the versions that ended, the current one,
  or none, and the guard of what removed it. Each change applies at once, a
  truncate included.
-/

import Rdlt.Merge.Guard
import Rdlt.Connector.Change
import Rdlt.Lib.StableSort

namespace Rdlt.Merge.Versioned

/-! ## Versions and changes -/

/-- How the row of a version says its life: its sequence, its data's hash, whether it is deleted,
    and when it begins and ends; and the row of a version that ended, or that `opened` published
    with the data of `data`. -/
structure Life (R σ H : Type) where
  seq : R → σ
  hash : R → H
  deleted : R → Bool
  begins : R → Int
  ends : R → Option Int
  /-- Whether deletes remove a key's version outright. -/
  hard : Bool
  closeAt : Int → R → R
  openAt : Int → R → R → R
  seq_closeAt : ∀ ended row, seq (closeAt ended row) = seq row
  begins_closeAt : ∀ ended row, begins (closeAt ended row) = begins row
  ends_closeAt : ∀ ended row, ends (closeAt ended row) = some ended
  seq_openAt : ∀ began data opened, seq (openAt began data opened) = seq opened
  hash_openAt : ∀ began data opened, hash (openAt began data opened) = hash data
  deleted_openAt : ∀ began data opened, deleted (openAt began data opened) = deleted opened
  begins_openAt : ∀ began data opened, begins (openAt began data opened) = began
  ends_openAt : ∀ began data opened, ends (openAt began data opened) = none

attribute [simp] Life.seq_closeAt Life.begins_closeAt Life.ends_closeAt Life.seq_openAt
  Life.hash_openAt Life.deleted_openAt Life.begins_openAt Life.ends_openAt

/-- A change of a key, or a truncate: what it does, its row, and the values that name its key. -/
structure Change (R P : Type) where
  op : ChangeOp
  row : R
  names : P

/-- What a history table holds of one key: the versions that ended, the current one, the sequence of
    the newest, whether a truncate was the last to act on it, and what guards it. -/
@[ext] structure State (R σ P : Type) [LinearOrder σ] where
  closed : Multiset R
  current : Option R
  newest : WithBot σ
  truncated : Bool
  guard : Guard σ P

variable {R σ H P : Type} [LinearOrder σ] [DecidableEq H]

namespace State

section

variable (guarded : Bool) (life : Life R σ H) (state : State R σ P)

def versions : Multiset R := state.closed + state.current.toList

def greatest : WithBot σ :=
  (state.versions.map fun row => (life.seq row : WithBot σ)).sup

def latest (row : R) : WithBot Int :=
  max (life.begins row : WithBot Int) ((life.ends row).elim ⊥ fun ended => (ended : WithBot Int))

/-- The latest instant the key's versions hold. -/
def floor : WithBot Int :=
  (state.versions.map (latest life)).sup

/-- When `row`, a change of the key that acts, begins: when it says, or the latest instant the key
    held before it, if that is later. -/
def begun (row : R) : Int :=
  (max (state.floor life) (life.begins row)).unbotD (life.begins row)

/-- Closes the current version, and opens one of `data` where there is any, published by `row`. -/
def replace (data : Option R) (row : R) : State R σ P :=
  { state with
    closed := (state.current.map (life.closeAt (state.begun life row))).toList + state.closed
    current := data.map fun data => life.openAt (state.begun life row) data row
    newest := data.elim state.newest fun _ => life.seq row }

def alike (row : R) : Bool :=
  state.current.any fun version => !life.deleted version && life.hash version == life.hash row

def upserted (row : R) : State R σ P :=
  if state.alike life row then state else state.replace life (some row) row

def removed (row : R) : State R σ P :=
  match state.current with
  | none => state
  | some version =>
    if life.hard then state.replace life none row
    else if life.deleted version then state
    else state.replace life (some version) row

/-- Applies a truncate to the key's versions: to the current one, where it is before it. -/
def cleared (row : R) : State R σ P :=
  if state.current.any fun version => life.seq version < life.seq row then
    { state.removed life row with truncated := true }
  else state

def truncate (row : R) : State R σ P :=
  if state.guard.reached (life.seq row) then
    { state.cleared life row with
      guard := if life.hard then state.guard.raise (life.seq row) else state.guard }
  else state

/-- Whether a change at `seq` is past the key's newest version: at its own sequence, only where a
    truncate opened it. -/
def past (seq : σ) : Bool :=
  state.newest < seq || (state.newest = seq && state.truncated)

def delete (change : Change R P) : State R σ P :=
  { state.removed life change.row with
    truncated := false
    guard :=
      if life.hard then state.guard.bury (life.seq change.row) change.names else state.guard }

def upsert (change : Change R P) : State R σ P :=
  { state.upserted life change.row with truncated := false, guard := state.guard.lift }

/-- Whether a change of the key at `seq` applies, where `guarded` says changes are guarded. -/
def accepts (seq : σ) : Bool :=
  !guarded || (state.guard.admits seq && state.past seq)

def step (guarded : Bool) (state : State R σ P) (change : Change R P) : State R σ P :=
  if change.op = .truncate then state.truncate life change.row
  else if !state.accepts guarded (life.seq change.row) then state
  else if change.op = .delete then state.delete life change
  else state.upsert life change

def run (guarded : Bool) (state : State R σ P) (changes : List (Change R P)) : State R σ P :=
  changes.foldl (step life guarded) state

/-- What of the state is stored: not whether a truncate was the last to act, and the newest only by
    the versions it is of. -/
def stored : State R σ P :=
  { state with newest := state.greatest life, truncated := false }

end

end State

/-- Where a change applies: at its sequence, a truncate before the other changes of its own. -/
def Change.rank (life : Life R σ H) (change : Change R P) : σ ×ₗ Bool :=
  toLex (life.seq change.row, change.op ≠ .truncate)

def Change.before (life : Life R σ H) (left right : Change R P) : Prop :=
  left.rank life ≤ right.rank life

instance (life : Life R σ H) : DecidableRel (Change.before (P := P) life) :=
  fun left right => inferInstanceAs (Decidable (left.rank life ≤ right.rank life))

instance (life : Life R σ H) : Std.Total (Change.before (P := P) life) where
  total _ _ := le_total _ _

instance (life : Life R σ H) : IsTrans (Change R P) (Change.before life) where
  trans _ _ _ := le_trans

/-- Merges changes: they apply in sequence order, those of one sequence in the order given. -/
def State.merge (life : Life R σ H) (guarded : Bool) (state : State R σ P)
    (changes : List (Change R P)) : State R σ P :=
  (state.run life guarded (changes.insertionSort (Change.before life))).stored life

end Rdlt.Merge.Versioned
