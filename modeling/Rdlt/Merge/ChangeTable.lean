/-
  Rdlt.Merge.ChangeTable

  A change stream's table, and what it is key by key: the row and the guard its
  stored batches are of each key, and what a written batch changes of each.
-/

import Rdlt.Merge.Keyed
import Rdlt.Merge.Refine.Admitted
import Rdlt.Merge.Refine.Tombstones

namespace Rdlt.Merge

/-- A change stream's table that keeps the latest row of each key: its columns uniquely named, and
    its key, its sequence and, where deletes are soft, its deletion time among them, apart from each
    other. `encode` is the bytes a key compares by. -/
structure ChangeTable (D : Type) where
  schema : Schema
  key : MergeKey
  changes : ChangeColumns
  encode : KeyCells D key → Bytes
  changed : key.changes = some changes
  latest : key.history = none
  nodup : schema.Nodup
  keyed : key.columns ≠ []
  distinct : (key.columns ++ [key.seq]).Nodup
  named : ∀ name ∈ key.columns ++ [key.seq], name ∈ stored schema changes
  timed : ∀ time, changes.deletion = .soft time →
    time ∈ stored schema changes ∧ time ∉ key.columns ++ [key.seq]

namespace ChangeTable

variable {D : Type} (T : ChangeTable D)

/-! ## Columns -/

abbrev stored : Schema := Merge.stored T.schema T.changes

theorem stored_nodup : T.stored.Nodup := T.nodup.filter _

theorem seq_mem : T.key.seq ∈ T.stored := T.named _ (by simp)

def seqColumn : T.stored.Column := Schema.column T.stored T.key.seq T.seq_mem

/-- Where the table keeps its deletion time, where deletes are soft. -/
def time : Option T.stored.Column :=
  match T.changes.deletion with
  | .hard => none
  | .soft time => T.stored.indexOf? time

/-- Where the table keeps its sequence and deletion time. -/
def columns : Columns T.stored := { seq := T.seqColumn, time := T.time }

def layout : Keyed.Layout T.stored.Column := { seq := T.seqColumn, time := T.time }

theorem indexOf?_seq : T.stored.indexOf? T.key.seq = some T.seqColumn :=
  Schema.indexOf?_column T.seq_mem

theorem get_seqColumn : T.stored.get T.seqColumn = T.key.seq := Schema.get_column T.seq_mem

variable {time : T.stored.Column}

theorem get_of_time (h : T.time = some time) : T.changes.deletion = .soft (T.stored.get time) := by
  unfold ChangeTable.time at h
  split at h
  · cases h
  · rename_i name hdeletion
    rw [Schema.get_of_indexOf? h, hdeletion]

theorem time_ne_seq (h : T.time = some time) : time ≠ T.seqColumn := by
  rintro rfl
  have hapart := (T.timed _ (T.get_of_time h)).2
  rw [T.get_seqColumn] at hapart
  exact hapart (by simp)

def KeyColumn (column : T.stored.Column) : Prop := T.stored.get column ∈ T.key.columns

theorem not_keyColumn_seqColumn : ¬ T.KeyColumn T.seqColumn := by
  unfold KeyColumn
  rw [T.get_seqColumn]
  intro hmem
  exact (List.nodup_append.mp T.distinct).2.2 _ hmem _ (List.mem_singleton_self _) rfl

theorem not_keyColumn_time (h : T.time = some time) : ¬ T.KeyColumn time := by
  intro hmem
  exact (T.timed _ (T.get_of_time h)).2 (List.mem_append_left _ hmem)

/-! ## Keys -/

def keyCells (row : Row D T.stored) : KeyCells D T.key :=
  fun index => (T.stored.indexOf? (T.key.columns.get index)).bind row

def rowKey (row : Row D T.stored) : Bytes := T.encode (T.keyCells row)

theorem keyCells_congr {row row' : Row D T.stored}
    (h : ∀ column, T.KeyColumn column → row column = row' column) :
    T.keyCells row = T.keyCells row' := by
  funext index
  refine Option.bind_congr fun column hcolumn => h column ?_
  unfold KeyColumn
  rw [Schema.get_of_indexOf? hcolumn]
  exact List.get_mem ..

/-! ## The stored table, key by key -/

def storedRow (row : Row D T.stored) : Keyed.Row T.stored.Column (Value D) Bytes :=
  { cells := row, seq := comparedBytes (row T.seqColumn), truncated := false }

def rowsOf (rows : List (Batch D)) (k : Bytes) : List (Row D T.stored) :=
  (readBack T.stored rows).filter fun row => T.rowKey row == k

/-- What the table holds of a key. -/
abbrev KeyState := Keyed.State T.stored.Column (Value D) Bytes (KeyCells D T.key)

def view (rows tombstones : List (Batch D)) (k : Bytes) : T.KeyState where
  row := (T.rowsOf rows k).getLast?.map T.storedRow
  guard := storedGuard T.encode (storedUnder T.key tombstones) k

/-! ## Written rows as changes -/

section

variable (raw : Batch D) (row : Nat)

def flagsColumn (fields : Schema) (bitmap : Bytes) (column : T.stored.Column) : Bool :=
  (fields.map T.stored.indexOf?).zipIdx.any fun (field, ordinal) =>
    field == some column && UnchangedFlags.contains bitmap ordinal

abbrev opAt (raw : Batch D) (row : Nat) : ChangeOp := T.changes.opAt raw row

def bitmapAt : Option Bytes :=
  (T.changes.unchanged.filter raw.hasColumn).bind fun name => bitmap (raw.cell row name)

def keptAt (column : T.stored.Column) : Bool :=
  (T.bitmapAt raw row).any fun bitmap => T.flagsColumn raw.fields bitmap column

def rowAt : Row D T.stored :=
  fun column => raw.cell row (T.stored.get column)

/-- A change of the table's rows, its key named by its values. -/
abbrev KeyedChange := Keyed.Change T.stored.Column (Value D) Bytes (KeyCells D T.key)

def changeAt : T.KeyedChange where
  op := T.opAt raw row
  seq := comparedBytes (T.rowAt raw row T.seqColumn)
  cells := T.rowAt raw row
  kept := T.keptAt raw row
  names := T.keyCells (T.rowAt raw row)

end

/-- The changes the written batches `incoming` hold, in the order they were written. -/
def changesOf (incoming : List (Batch D)) : List T.KeyedChange :=
  incoming.flatMap fun raw => (List.range raw.numRows).map (T.changeAt raw)

/-- Whether `change` is one of the key encoded `k`, as a truncate is of every key. -/
def concerns (k : Bytes) (change : T.KeyedChange) : Bool :=
  change.op == .truncate || T.encode change.names == k

def changesFor (incoming : List (Batch D)) (k : Bytes) : List T.KeyedChange :=
  (T.changesOf incoming).filter (T.concerns k)

/-- What the engine gives a change stream's table: each of its changes but the truncates names a
    key. -/
def Named (incoming : List (Batch D)) : Prop :=
  ∀ change ∈ T.changesOf incoming, change.op ≠ .truncate → change.names.allNull = false

instance (incoming : List (Batch D)) : Decidable (T.Named incoming) :=
  inferInstanceAs (Decidable (∀ change ∈ T.changesOf incoming, _ → _))

end ChangeTable

/-! ## A table of accounts -/

namespace Accounts

def changes (soft : Bool) : ChangeColumns where
  op := "op"
  unchanged := some "unchanged"
  deletion := if soft then .soft "deleted" else .hard

def key (soft : Bool) : MergeKey where
  columns := ["id"]
  seq := "seq"
  root := none
  changes := some (changes soft)
  history := none

/-- The bytes a key of small numbers compares by. -/
def encode {key : MergeKey} (cells : KeyCells Unit key) : Bytes :=
  (List.ofFn cells).flatMap fun cell =>
    match cell with
    | some (.int n) => [1, Fin.ofNat 256 n.toNat]
    | _ => [0]

/-- Accounts, each a number and a balance, whose deletes are soft or hard. -/
def table (soft : Bool) : ChangeTable Unit where
  schema := ["id", "balance", "seq", "deleted", "op", "unchanged"]
  key := key soft
  changes := changes soft
  encode := encode
  changed := rfl
  latest := rfl
  nodup := by decide
  keyed := by cases soft <;> decide
  distinct := by cases soft <;> decide
  named := by cases soft <;> decide
  timed := by
    cases soft
    · rintro time ⟨⟩
    · rintro time ⟨⟩
      decide

/-- A change of an account: its number, balance, sequence and deletion time, what it does and the
    columns it flags unchanged. -/
structure Written where
  id : Option Int
  balance : Option Int
  seq : Int
  deleted : Option Int
  op : ChangeOp
  unchanged : Option Bytes

def Written.row (written : Written) : List (Cell Unit) :=
  [written.id.map .int, written.balance.map .int, some (.int written.seq),
    written.deleted.map .int, some (.int written.op.code), written.unchanged.map .bytes]

def batch (rows : List Written) : Batch Unit where
  fields := ["id", "balance", "seq", "deleted", "op", "unchanged"]
  rows := rows.map Written.row
  shaped := by
    intro row hrow
    obtain ⟨written, -, rfl⟩ := List.mem_map.mp hrow
    rfl

def insert (id balance seq : Int) : Written :=
  { id := some id, balance := some balance, seq, deleted := none, op := .insert, unchanged := none }

def touch (id seq : Int) : Written :=
  { id := some id, balance := none, seq, deleted := none, op := .update, unchanged := some [2] }

def delete (id seq : Int) : Written :=
  { id := some id, balance := none, seq, deleted := some seq, op := .delete, unchanged := none }

def truncate (seq : Int) : Written :=
  { id := none, balance := none, seq, deleted := some seq, op := .truncate, unchanged := none }

end Accounts

end Rdlt.Merge
