/-
  Rdlt.Merge.Keyed

  What a change stream's table is for one key: its row, or none, and the guard
  of what removed it. Each change applies at once, a truncate included.
-/

import Rdlt.Merge.Guard
import Rdlt.Connector.Change
import Rdlt.Lib.StableSort

namespace Rdlt.Merge.Keyed

/-! ## Rows and changes -/

/-- Where a table keeps its sequence and, where deletes are soft, its deletion time. -/
structure Layout (ι : Type) where
  seq : ι
  time : Option ι

/-- A change of a key, or a truncate: what it does, its sequence, its cells, the columns it keeps
    and the values that name its key. -/
structure Change (ι V σ P : Type) where
  op : ChangeOp
  seq : σ
  cells : ι → Option V
  kept : ι → Bool
  names : P

/-- A key's row; `truncated` where a truncate gave it its sequence. -/
@[ext] structure Row (ι V σ : Type) where
  cells : ι → Option V
  seq : σ
  truncated : Bool

/-- What a table holds of one key. -/
@[ext] structure State (ι V σ P : Type) [LinearOrder σ] where
  row : Option (Row ι V σ)
  guard : Guard σ P

variable {ι V σ P : Type} [DecidableEq ι] [LinearOrder σ]

namespace Row

/-- The row marked deleted by `change`: with its sequence, and its time where the row has none. -/
def mark (layout : Layout ι) (time : ι) (change : Change ι V σ P) (truncated : Bool)
    (row : Row ι V σ) : Row ι V σ where
  cells column :=
    if column = time ∧ (row.cells time).isNone then change.cells column
    else if column = layout.seq then change.cells column
    else row.cells column
  seq := change.seq
  truncated := truncated

/-- A truncate removes a row before it, or where deletes are soft marks it deleted. -/
def truncate (layout : Layout ι) (change : Change ι V σ P) (row : Row ι V σ) : Option (Row ι V σ) :=
  if row.seq < change.seq then layout.time.map fun time => row.mark layout time change true
  else some row

/-- Whether a change at `seq` is not past the row: at the row's own sequence, only where a truncate
    gave it. -/
def behind (row : Row ι V σ) (seq : σ) : Bool :=
  seq < row.seq || (row.seq = seq && !row.truncated)

/-- The row an insert or update leaves: its own cells, but for those it keeps of `current`. -/
def updated (change : Change ι V σ P) (current : Option (Row ι V σ)) : Row ι V σ where
  cells column :=
    if change.kept column then current.bind fun row => row.cells column else change.cells column
  seq := change.seq
  truncated := false

end Row

namespace State

def truncate (layout : Layout ι) (state : State ι V σ P) (change : Change ι V σ P) :
    State ι V σ P :=
  if state.guard.reached change.seq then
    { row := state.row.bind (Row.truncate layout change)
      guard := if layout.time.isNone then state.guard.raise change.seq else state.guard }
  else state

section

variable (layout : Layout ι) (state : State ι V σ P)

/-- Applies a delete past the key's row: it removes the row, or where deletes are soft marks it. -/
def delete (change : Change ι V σ P) : State ι V σ P :=
  match layout.time with
  | none => { row := none, guard := state.guard.bury change.seq change.names }
  | some time => { state with row := state.row.map (Row.mark layout time change false) }

/-- Applies an insert or update past the key's row. -/
def upsert (change : Change ι V σ P) : State ι V σ P where
  row := some (Row.updated change state.row)
  guard := state.guard.lift

def accepts (seq : σ) : Bool :=
  state.guard.admits seq && state.row.all fun row => !row.behind seq

def step (change : Change ι V σ P) : State ι V σ P :=
  if change.op = .truncate then state.truncate layout change
  else if !state.accepts change.seq then state
  else if change.op = .delete then state.delete layout change
  else state.upsert change

def run (changes : List (Change ι V σ P)) : State ι V σ P :=
  changes.foldl (step layout) state

/-- What of the state is stored: not whether a truncate gave the row its sequence. -/
def stored : State ι V σ P :=
  { state with row := state.row.map fun row => { row with truncated := false } }

end

end State

/-- Whether `left` applies no later than `right`: in sequence order, a truncate before the other
    changes of its sequence. -/
def Change.before (left right : Change ι V σ P) : Prop :=
  left.seq < right.seq ∨
    (left.seq = right.seq ∧ (left.op = .truncate ∨ right.op ≠ .truncate))

instance : DecidableRel (Change.before (ι := ι) (V := V) (σ := σ) (P := P)) :=
  fun _ _ => inferInstanceAs (Decidable (_ ∨ _))

/-- Merges changes: they apply in sequence order, those of one sequence in the order given. -/
def State.merge (layout : Layout ι) (state : State ι V σ P) (changes : List (Change ι V σ P)) :
    State ι V σ P :=
  (state.run layout (changes.insertionSort Change.before)).stored

end Rdlt.Merge.Keyed
