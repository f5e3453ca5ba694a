/-
  Rdlt.Connector.Records

  Pipeline state and how it is stored: as keyed records a destination keeps
  opaque. An entry of state is one record; a commit's changes put records and
  delete keys. Applied in the engine, a change reads the record back into its
  entry.
-/

import Rdlt.Connector.State
import Rdlt.Connector.Schema
import Rdlt.Lib.Checked

namespace Rdlt.Records

/-! ## Entries and keys -/

/-- Who made the sequences of a table's rows. -/
inductive Sequences where
  | engine
  | source
  deriving DecidableEq, Repr

/-- How a table's root rows are identified: by the hash of their key, or some by position. -/
inductive Identity where
  | key
  | position
  deriving DecidableEq, Repr

/-- Which state record an entry is. -/
inductive StateKey where
  | epoch
  | phase (stream : StreamName)
  | partition (stream : StreamName) (partition : PartitionId)
  | generation (stream : StreamName)
  | completed (stream : StreamName)
  | reset (stream : StreamName)
  | schema (table : TablePath)
  | names (table : TablePath)
  | sequences (table : TablePath)
  deriving DecidableEq, Repr

namespace StateKey

def parts : StateKey → Nat ×ₗ List String
  | .epoch => toLex (0, [])
  | .phase stream => toLex (1, [stream])
  | .partition stream id => toLex (2, [stream, id])
  | .generation stream => toLex (3, [stream])
  | .completed stream => toLex (4, [stream])
  | .reset stream => toLex (5, [stream])
  | .schema table => toLex (6, table)
  | .names table => toLex (7, table)
  | .sequences table => toLex (8, table)

theorem parts_injective : Function.Injective parts := by
  intro a b h
  cases a <;> cases b <;> simp_all [parts]

instance linearOrder : LinearOrder StateKey := LinearOrder.lift' parts parts_injective

instance transCmp : Std.TransCmp (@compare StateKey LinearOrder.toOrd) := inferInstance

end StateKey

/-- One piece of pipeline state. -/
inductive StateEntry where
  | epoch (epoch : Epoch)
  | phase (stream : StreamName) (phase : Nat)
  | partition (stream : StreamName) (partition : PartitionId) (state : PartitionState)
      (epoch : Epoch)
  | generation (stream : StreamName) (generation : GenerationId)
  | completed (stream : StreamName) (generations : List GenerationId)
  | reset (stream : StreamName) (epoch : Epoch)
  | schema (table : TablePath) (version : SchemaVersion) (schema : TableSchema)
  | names (table : TablePath) (physical : String) (names : NameMap)
  | sequences (table : TablePath) (sequences : Sequences) (history : Bool) (key : List ColumnPath)
      (changeTime : Option ColumnPath) (identity : Identity)

def StateEntry.key : StateEntry → StateKey
  | .epoch _ => .epoch
  | .phase stream _ => .phase stream
  | .partition stream id _ _ => .partition stream id
  | .generation stream _ => .generation stream
  | .completed stream _ => .completed stream
  | .reset stream _ => .reset stream
  | .schema table _ _ => .schema table
  | .names table _ _ => .names table
  | .sequences table _ _ _ _ _ => .sequences table

/-! ## State -/

/-- A table's committed schema and names. -/
structure TableState where
  schema : Option (SchemaVersion × TableSchema) := none
  physical : Option String := none
  names : NameMap := .empty
  sequences : Option Sequences := none
  history : Bool := false
  key : List ColumnPath := []
  changeTime : Option ColumnPath := none
  identity : Identity := .key

structure PipelineState extends Rdlt.PipelineState where
  epoch : Epoch := 0
  tables : Lib.OrdMap TablePath TableState := ∅
  resets : Lib.OrdMap StreamName Epoch := ∅

namespace PipelineState

section

variable (state : PipelineState)

def putStream (entry : Rdlt.StateEntry) : PipelineState :=
  { state with toPipelineState := state.toPipelineState.put entry }

def deleteStream (key : Rdlt.StateKey) : PipelineState :=
  { state with toPipelineState := state.toPipelineState.delete key }

/-- The state with `table` as `change` leaves it, made where there is none. -/
def entryTable (table : TablePath) (change : TableState → TableState) : PipelineState :=
  { state with tables := state.tables.insert table (change (state.tables.getD table {})) }

def heldTable (table : TablePath) (change : TableState → TableState) : PipelineState :=
  match state.tables[table]? with
  | some held => { state with tables := state.tables.insert table (change held) }
  | none => state

def put : StateEntry → PipelineState
  | .epoch epoch => { state with epoch }
  | .phase stream phase => state.putStream (.phase stream phase)
  | .partition stream partition position epoch =>
    state.putStream (.partition stream partition position epoch)
  | .generation stream generation => state.putStream (.generation stream generation)
  | .completed stream generations => state.putStream (.completed stream generations)
  | .reset stream epoch => { state with resets := state.resets.insert stream epoch }
  | .schema table version schema => state.entryTable table fun held =>
    { held with schema := some (version, schema) }
  | .names table physical names => state.entryTable table fun held =>
    { held with physical := some physical, names }
  | .sequences table sequences history key changeTime identity =>
    state.entryTable table fun held =>
      { held with sequences := some sequences, history, key, changeTime, identity }

def delete : StateKey → PipelineState
  | .epoch => { state with epoch := 0 }
  | .phase stream => state.deleteStream (.phase stream)
  | .partition stream partition => state.deleteStream (.partition stream partition)
  | .generation stream => state.deleteStream (.generation stream)
  | .completed stream => state.deleteStream (.completed stream)
  | .reset stream => { state with resets := state.resets.erase stream }
  | .schema table => state.heldTable table fun held => { held with schema := none }
  | .names table => state.heldTable table fun held =>
      { held with physical := none, names := .empty }
  | .sequences table => state.heldTable table fun held =>
    { held with
      sequences := none, history := false, key := [], changeTime := none, identity := .key }

end

end PipelineState

/-! ## Records -/

/-- One stored state record, opaque to the destination that keeps it: its key's text and its
    value's. -/
structure StateRecord (K V : Type) where
  key : K
  value : V
  deriving DecidableEq, Repr

inductive StateChange (K V : Type) where
  | put (record : StateRecord K V)
  | delete (key : K)
  deriving DecidableEq, Repr

/-- A state value as it is read: its entry, or the other format it is of. -/
inductive Reading where
  | entry (entry : StateEntry)
  | other (version : Nat)

inductive StateError where
  | malformedKey (key : String)
  | malformedValue (key reason : String)
  | unsupportedVersion (key : String) (version : Nat)
  | repeated (key : String)
  | keyMismatch (key : String)
  deriving DecidableEq, Repr

/-- How keys and values are serialized, as the texts `K` and `V`, and how an error shows a key and
    what is wrong with a value: what is written reads back as what it was. -/
structure Codec (K V : Type) where
  encodeKey : StateKey → K
  readKey : K → Option StateKey
  writeEntry : StateEntry → V
  readEntry : V → Except String Reading
  shownKey : K → String
  shown : String → String
  readKey_encodeKey : ∀ key, readKey (encodeKey key) = some key
  readEntry_writeEntry : ∀ entry, readEntry (writeEntry entry) = .ok (.entry entry)

/-- Keys and entries that are their own texts. -/
def Codec.plain : Codec StateKey StateEntry where
  encodeKey key := key
  readKey key := some key
  writeEntry entry := entry
  readEntry entry := .ok (.entry entry)
  shownKey _ := ""
  shown text := text
  readKey_encodeKey _ := rfl
  readEntry_writeEntry _ := rfl

variable {K V : Type} [DecidableEq K] (codec : Codec K V)

section

variable (state : PipelineState)

def StateKey.encode (key : StateKey) : K := codec.encodeKey key

/-- The key a record key names; only the exact text `encode` writes is accepted. -/
def StateKey.parse (key : K) : Except StateError StateKey :=
  match codec.readKey key with
  | some parsed =>
    if parsed.encode codec = key then .ok parsed
    else .error (.malformedKey (codec.shownKey key))
  | none => .error (.malformedKey (codec.shownKey key))

def StateEntry.toRecord (entry : StateEntry) : StateRecord K V where
  key := entry.key.encode codec
  value := codec.writeEntry entry

def StateEntry.fromRecord (record : StateRecord K V) : Except StateError StateEntry := do
  let key ← StateKey.parse codec record.key
  match codec.readEntry record.value with
  | .error reason => .error (.malformedValue (codec.shownKey record.key) (codec.shown reason))
  | .ok (.other version) => .error (.unsupportedVersion (codec.shownKey record.key) version)
  | .ok (.entry entry) =>
    if entry.key = key then .ok entry else .error (.keyMismatch (codec.shownKey record.key))

def PipelineState.apply : StateChange K V → Except StateError PipelineState
  | .put record => (StateEntry.fromRecord codec record).map state.put
  | .delete key => (StateKey.parse codec key).map state.delete

def PipelineState.applyAll (delta : List (StateChange K V)) : Except StateError PipelineState :=
  delta.foldlM (PipelineState.apply codec) state

/-! ## What is written reads back -/

@[simp] theorem parse_encode (key : StateKey) :
    StateKey.parse codec (key.encode codec) = .ok key := by
  rw [StateKey.parse, StateKey.encode, codec.readKey_encodeKey]
  exact if_pos rfl

@[simp] theorem fromRecord_toRecord (entry : StateEntry) :
    StateEntry.fromRecord codec (entry.toRecord codec) = .ok entry := by
  rw [StateEntry.fromRecord, StateEntry.toRecord, parse_encode, codec.readEntry_writeEntry]
  exact if_pos rfl

/-- A change of an entry or a key, as it is made. -/
inductive Edit where
  | put (entry : StateEntry)
  | delete (key : StateKey)

def Edit.change : Edit → StateChange K V
  | .put entry => .put (entry.toRecord codec)
  | .delete key => .delete (key.encode codec)

def PipelineState.edit : Edit → PipelineState
  | .put entry => state.put entry
  | .delete key => state.delete key

@[simp] theorem apply_change (edit : Edit) :
    state.apply codec (edit.change codec) = .ok (state.edit edit) := by
  cases edit with
  | put entry =>
    rw [Edit.change, PipelineState.apply, fromRecord_toRecord]
    rfl
  | delete key =>
    rw [Edit.change, PipelineState.apply, parse_encode]
    rfl

theorem applyAll_changes (edits : List Edit) : state.applyAll codec (edits.map (Edit.change codec))
      = .ok (edits.foldl PipelineState.edit state) := by
  induction edits generalizing state with
  | nil => rfl
  | cons edit edits ih =>
    rw [List.map_cons, PipelineState.applyAll, List.foldlM_cons, apply_change]
    exact ih (state.edit edit)

end

/-! ## What state holds of streams -/

/-- What an edit does to what state holds of streams; an edit of anything else says nothing of
    them. -/
def Edit.ofStreams : Edit → StateEdit
  | .put (.phase stream phase) => .put (.phase stream phase)
  | .put (.partition stream partition state epoch) => .put (.partition stream partition state epoch)
  | .put (.generation stream generation) => .put (.generation stream generation)
  | .put (.completed stream generations) => .put (.completed stream generations)
  | .put _ => .put (.table "")
  | .delete (.phase stream) => .delete (.phase stream)
  | .delete (.partition stream partition) => .delete (.partition stream partition)
  | .delete (.generation stream) => .delete (.generation stream)
  | .delete (.completed stream) => .delete (.completed stream)
  | .delete _ => .delete (.table "")

theorem PipelineState.toPipelineState_edit (state : PipelineState) (edit : Edit) :
    (state.edit edit).toPipelineState = state.toPipelineState.edit edit.ofStreams := by
  have hheld : ∀ (table : TablePath) (change : TableState → TableState),
      (state.heldTable table change).toPipelineState = state.toPipelineState := by
    intro table change
    unfold PipelineState.heldTable
    split <;> rfl
  cases edit with
  | put entry => cases entry <;> rfl
  | delete key => cases key <;> first | rfl | exact hheld _ _

theorem PipelineState.toPipelineState_foldl (state : PipelineState) (edits : List Edit) :
    (edits.foldl PipelineState.edit state).toPipelineState
      = state.toPipelineState.apply (edits.map Edit.ofStreams) := by
  induction edits generalizing state with
  | nil => rfl
  | cons edit edits ih =>
    rw [List.foldl_cons, ih, toPipelineState_edit]
    rfl

end Rdlt.Records
