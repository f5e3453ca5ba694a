/-
  Rdlt.Merge.HistoryTable

  A history table, and what it is key by key: the versions and the guard its
  stored batches are of each key, how a version's row says its life, and what a
  written batch changes of each key.
-/

import Rdlt.Merge.History
import Rdlt.Merge.Versioned
import Rdlt.Merge.Refine.Admitted
import Rdlt.Merge.Refine.Tombstones

namespace Rdlt.Merge

/-- A table that keeps every version of each key, of a change stream or of rows that only upsert:
    its columns uniquely named, and its key, its sequence, the columns of a version's life and,
    where deletes are soft, its deletion time among them, apart from each other. `encode` is the
    bytes a key compares by. -/
structure HistoryTable (D : Type) where
  schema : Schema
  key : MergeKey
  history : HistoryColumns
  encode : KeyCells D key → Bytes
  kept : key.history = some history
  nodup : schema.Nodup
  keyed : key.columns ≠ []
  distinct : (key.columns ++ [key.seq, history.validFrom, history.validTo, history.isCurrent,
    history.rowHash]).Nodup
  named : ∀ name ∈ key.columns ++ [key.seq, history.validFrom, history.validTo, history.isCurrent,
    history.rowHash], name ∈ key.changes.elim schema (stored schema)
  timed : ∀ time, deletedAt key = some time →
    time ∈ key.changes.elim schema (stored schema) ∧
      time ∉ key.columns ++ [key.seq, history.validFrom, history.validTo, history.isCurrent,
        history.rowHash]

namespace HistoryTable

variable {D : Type} (H : HistoryTable D)

/-! ## Columns -/

abbrev stored : Schema := H.key.changes.elim H.schema (Merge.stored H.schema)

theorem stored_nodup : H.stored.Nodup := by
  cases hchanges : H.key.changes with
  | none => simpa [stored, hchanges] using H.nodup
  | some changes => simpa [stored, hchanges, Merge.stored] using H.nodup.filter _

def seqColumn : H.stored.Column := Schema.column H.stored H.key.seq (H.named _ (by simp))

def fromColumn : H.stored.Column := Schema.column H.stored H.history.validFrom (H.named _ (by simp))

def toColumn : H.stored.Column := Schema.column H.stored H.history.validTo (H.named _ (by simp))

def flagColumn : H.stored.Column := Schema.column H.stored H.history.isCurrent (H.named _ (by simp))

def hashColumn : H.stored.Column := Schema.column H.stored H.history.rowHash (H.named _ (by simp))

/-- Where the table keeps its deletion time, where deletes are soft. -/
def time : Option H.stored.Column := (deletedAt H.key).bind H.stored.indexOf?

/-- Whether a column is one a version's life is recorded in. -/
def LifeColumn (column : H.stored.Column) : Prop :=
  column = H.fromColumn ∨ column = H.toColumn ∨ column = H.flagColumn

/-- Whether a column is one the row that opened a version gives it. -/
def OpenedColumn (column : H.stored.Column) : Prop := column = H.seqColumn ∨ some column = H.time

instance (column : H.stored.Column) : Decidable (H.LifeColumn column) :=
  inferInstanceAs (Decidable (_ ∨ _))

instance (column : H.stored.Column) : Decidable (H.OpenedColumn column) :=
  inferInstanceAs (Decidable (_ ∨ _))

def KeyColumn (column : H.stored.Column) : Prop := H.stored.get column ∈ H.key.columns

/-! ## Columns apart -/

theorem names_nodup : [H.key.seq, H.history.validFrom, H.history.validTo, H.history.isCurrent,
    H.history.rowHash].Nodup :=
  (List.nodup_append.mp H.distinct).2.1

theorem to_ne_from : H.toColumn ≠ H.fromColumn := by
  have h := H.names_nodup
  simp only [List.nodup_cons, List.mem_cons, not_or] at h
  exact Schema.column_ne _ _ (Ne.symm h.2.1.1)

theorem flag_ne_from : H.flagColumn ≠ H.fromColumn := by
  have h := H.names_nodup
  simp only [List.nodup_cons, List.mem_cons, not_or] at h
  exact Schema.column_ne _ _ (Ne.symm h.2.1.2.1)

theorem flag_ne_to : H.flagColumn ≠ H.toColumn := by
  have h := H.names_nodup
  simp only [List.nodup_cons, List.mem_cons, not_or] at h
  exact Schema.column_ne _ _ (Ne.symm h.2.2.1.1)

theorem not_lifeColumn_seq : ¬ H.LifeColumn H.seqColumn := by
  have h := H.names_nodup
  simp only [List.nodup_cons, List.mem_cons, not_or] at h
  rintro (heq | heq | heq)
  · exact Schema.column_ne _ _ h.1.1 heq
  · exact Schema.column_ne _ _ h.1.2.1 heq
  · exact Schema.column_ne _ _ h.1.2.2.1 heq

theorem not_lifeColumn_hash : ¬ H.LifeColumn H.hashColumn := by
  have h := H.names_nodup
  simp only [List.nodup_cons, List.mem_cons, not_or] at h
  rintro (heq | heq | heq)
  · exact Schema.column_ne _ _ h.2.1.2.2.1 heq.symm
  · exact Schema.column_ne _ _ h.2.2.1.2.1 heq.symm
  · exact Schema.column_ne _ _ h.2.2.2.1.1 heq.symm

variable {time : H.stored.Column}

theorem get_of_time (h : H.time = some time) : deletedAt H.key = some (H.stored.get time) := by
  obtain ⟨name, hname, hcolumn⟩ := Option.bind_eq_some_iff.mp h
  rw [hname, Schema.get_of_indexOf? hcolumn]

theorem time_ne (h : H.time = some time) {name : String}
    (hname : name ∈ H.key.columns ++ [H.key.seq, H.history.validFrom, H.history.validTo,
      H.history.isCurrent, H.history.rowHash])
    : H.stored.get time ≠ name := by
  rintro rfl
  exact (H.timed _ (H.get_of_time h)).2 hname

theorem not_lifeColumn_time (h : H.time = some time) : ¬ H.LifeColumn time := by
  rintro (rfl | rfl | rfl)
  · exact H.time_ne h (by simp) (Schema.get_column _)
  · exact H.time_ne h (by simp) (Schema.get_column _)
  · exact H.time_ne h (by simp) (Schema.get_column _)

theorem not_openedColumn_hash : ¬ H.OpenedColumn H.hashColumn := by
  have hnames := H.names_nodup
  simp only [List.nodup_cons, List.mem_cons, not_or] at hnames
  rintro (heq | heq)
  · exact Schema.column_ne _ _ hnames.1.2.2.2.1 heq.symm
  · exact H.time_ne heq.symm (by simp) (Schema.get_column _)

theorem KeyColumn.not_life {column : H.stored.Column} (h : H.KeyColumn column) :
    ¬ H.LifeColumn column ∧ ¬ H.OpenedColumn column := by
  have hapart : ∀ name ∈ [H.key.seq, H.history.validFrom, H.history.validTo, H.history.isCurrent,
      H.history.rowHash], H.stored.get column ≠ name := fun name hname =>
    (List.nodup_append.mp H.distinct).2.2 _ h _ hname
  refine ⟨?_, ?_⟩
  · rintro (rfl | rfl | rfl)
    · exact hapart _ (by simp) (Schema.get_column _)
    · exact hapart _ (by simp) (Schema.get_column _)
    · exact hapart _ (by simp) (Schema.get_column _)
  · rintro (rfl | heq)
    · exact hapart _ (by simp) (Schema.get_column _)
    · exact H.time_ne heq.symm (List.mem_append_left _ h) rfl

/-! ## Lives -/

def instant : Cell D → Option Int
  | some (.int n) => some n
  | _ => none

def isSet : Cell D → Bool
  | some (.bool set) => set
  | _ => false

def dated (row : Row D H.stored) (began : Int) (ended : Option Int) (current : Bool) :
    Row D H.stored :=
  fun column =>
    if column = H.fromColumn then some (.int began)
    else if column = H.toColumn then ended.map .int
    else if column = H.flagColumn then some (.bool current)
    else row column

def published (data opened : Row D H.stored) : Row D H.stored :=
  fun column => if H.OpenedColumn column then opened column else data column

section

variable (row : Row D H.stored) (began : Int) (ended : Option Int) (current : Bool)

theorem dated_from : H.dated row began ended current H.fromColumn = some (.int began) := by
  simp [dated]

theorem dated_to : H.dated row began ended current H.toColumn = ended.map .int := by
  simp [dated, H.to_ne_from]

theorem dated_flag : H.dated row began ended current H.flagColumn = some (.bool current) := by
  simp [dated, H.flag_ne_from, H.flag_ne_to]

theorem dated_of_not_life {column : H.stored.Column} (h : ¬ H.LifeColumn column) :
    H.dated row began ended current column = row column := by
  simp only [LifeColumn, not_or] at h
  simp [dated, h.1, h.2.1, h.2.2]

end

variable {row row' : Row D H.stored}

theorem dated_congr (began : Int) (ended : Option Int) (current : Bool)
    (h : ∀ column, ¬ H.LifeColumn column → row column = row' column) :
    H.dated row began ended current = H.dated row' began ended current := by
  funext column
  by_cases hlife : H.LifeColumn column
  · rcases hlife with rfl | rfl | rfl
    · rw [dated_from, dated_from]
    · rw [dated_to, dated_to]
    · rw [dated_flag, dated_flag]
  · rw [H.dated_of_not_life _ _ _ _ hlife, H.dated_of_not_life _ _ _ _ hlife, h column hlife]

theorem published_self (row : Row D H.stored) : H.published row row = row := by
  funext column
  simp [published]

def deleted (row : Row D H.stored) : Bool := H.time.any fun column => (row column).isSome

theorem deleted_dated (data opened : Row D H.stored) (began : Int) (ended : Option Int)
    (current : Bool) :
    H.deleted (H.dated (H.published data opened) began ended current) = H.deleted opened := by
  unfold deleted
  cases htime : H.time with
  | none => rfl
  | some time =>
    simp only [Option.any_some]
    rw [H.dated_of_not_life _ _ _ _ (H.not_lifeColumn_time htime), published,
      if_pos (.inr htime.symm)]

/-- When a row says it begins; one that says nothing begins at the least instant. -/
def begins (row : Row D H.stored) : Int := (instant (row H.fromColumn)).getD History.minInstant

/-- How the row of a version says its life. -/
def life : Versioned.Life (Row D H.stored) Bytes (Option Bytes) where
  seq row := comparedBytes (row H.seqColumn)
  hash row := (row H.hashColumn).map fun value => comparedBytes (some value)
  deleted := H.deleted
  begins := H.begins
  ends row := instant (row H.toColumn)
  hard := H.time.isNone
  closeAt ended row := H.dated row (H.begins row) (some ended) false
  openAt began data opened := H.dated (H.published data opened) began none true
  seq_closeAt ended row := by rw [H.dated_of_not_life _ _ _ _ H.not_lifeColumn_seq]
  begins_closeAt ended row := by rw [begins, dated_from]; rfl
  ends_closeAt ended row := by rw [dated_to]; rfl
  seq_openAt began data opened := by
    rw [H.dated_of_not_life _ _ _ _ H.not_lifeColumn_seq, published, if_pos (.inl rfl)]
  hash_openAt began data opened := by
    rw [H.dated_of_not_life _ _ _ _ H.not_lifeColumn_hash, published,
      if_neg H.not_openedColumn_hash]
  deleted_openAt began data opened := H.deleted_dated data opened began none true
  begins_openAt began data opened := by rw [begins, dated_from]; rfl
  ends_openAt began data opened := by rw [dated_to]; rfl

/-! ## The stored table, key by key -/

def keyCells (row : Row D H.stored) : KeyCells D H.key :=
  fun index => (H.stored.indexOf? (H.key.columns.get index)).bind row

def rowKey (row : Row D H.stored) : Bytes := H.encode (H.keyCells row)

theorem keyCells_congr (h : ∀ column, H.KeyColumn column → row column = row' column) :
    H.keyCells row = H.keyCells row' := by
  funext index
  refine Option.bind_congr fun column hcolumn => h column ?_
  unfold KeyColumn
  rw [Schema.get_of_indexOf? hcolumn]
  exact List.get_mem ..

def rowsOf (rows : List (Batch D)) (k : Bytes) : List (Row D H.stored) :=
  (readBack H.stored rows).filter fun row => H.rowKey row == k

def flagged (row : Row D H.stored) : Bool := isSet (row H.flagColumn)

def guarded : Bool := H.key.changes.isSome

/-- What a history table holds of a key. -/
abbrev KeyState := Versioned.State (Row D H.stored) Bytes (KeyCells D H.key)

def storedGuard (tombstones : List (Batch D)) (k : Bytes) : Guard Bytes (KeyCells D H.key) :=
  Merge.storedGuard H.encode (storedUnder H.key (if H.guarded then tombstones else [])) k

/-- What a key's rows, and what guards it, are of it: its versions, the last flagged its current
    one. -/
def stateOf (rows : List (Row D H.stored)) (guard : Guard Bytes (KeyCells D H.key)) : H.KeyState :=
  Versioned.State.stored H.life
    { closed := rows.filter fun row => !H.flagged row
      current := (rows.filter H.flagged).getLast?
      newest := ⊥
      truncated := false
      guard }

def view (rows tombstones : List (Batch D)) (k : Bytes) : H.KeyState :=
  H.stateOf (H.rowsOf rows k) (H.storedGuard tombstones k)

/-! ## Written rows as changes -/

def rowAt (raw : Batch D) (row : Nat) : Row D H.stored :=
  fun column => raw.cell row (H.stored.get column)

/-- What a row of a written batch does: a change stream's names it, every other row updates. -/
def opAt (raw : Batch D) (row : Nat) : ChangeOp :=
  H.key.changes.elim .update fun changes => changes.opAt raw row

/-- A change of the table's rows, its key named by its values. -/
abbrev KeyChange := Versioned.Change (Row D H.stored) (KeyCells D H.key)

def changeAt (raw : Batch D) (row : Nat) : H.KeyChange where
  op := H.opAt raw row
  row := H.rowAt raw row
  names := H.keyCells (H.rowAt raw row)

/-- The changes the written batches `incoming` hold, in the order they were written. -/
def changesOf (incoming : List (Batch D)) : List H.KeyChange :=
  incoming.flatMap fun raw => (List.range raw.numRows).map (H.changeAt raw)

/-- Whether `change` is one of the key encoded `k`, as a truncate is of every key. -/
def concerns (k : Bytes) (change : H.KeyChange) : Bool :=
  change.op == .truncate || H.encode change.names == k

def changesFor (incoming : List (Batch D)) (k : Bytes) : List H.KeyChange :=
  (H.changesOf incoming).filter (H.concerns k)

/-- What the engine gives a change stream's table: each of its changes but the truncates names a
    key. -/
def Named (incoming : List (Batch D)) : Prop :=
  ∀ change ∈ H.changesOf incoming, change.op ≠ .truncate → change.names.allNull = false

instance (incoming : List (Batch D)) : Decidable (H.Named incoming) :=
  inferInstanceAs (Decidable (∀ change ∈ H.changesOf incoming, _ → _))

end HistoryTable

end Rdlt.Merge
