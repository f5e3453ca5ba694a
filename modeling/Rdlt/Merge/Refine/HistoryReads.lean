/-
  Rdlt.Merge.Refine.HistoryReads

  What a merge of history reads of its sources: it reads them exactly when every
  sequence and hash compares and every instant and flag is one, and its changes
  are those of each key in the order they apply.
-/

import Rdlt.Merge.Refine.HistoryRun

namespace Rdlt.Merge

open Lib

/-! ## Columns read value by value -/

def Reads {D α : Type} (read : Cell D → Except MergeError (Option α)) (cell : Cell D) : Prop :=
  ∃ value, read cell = .ok value

section

variable {D : Type} {schema : Schema} {sources : Sources D schema}

theorem mem_places_of_cell {place : At} {column : schema.Column}
    (h : sources.cell place column ≠ none) : place ∈ places 0 sources.list := by
  cases hget : sources.list[place.source]? with
  | none => exact absurd (by simp [Sources.cell, hget]) h
  | some raw =>
    have hrow : place.row < raw.numRows := by
      by_contra hge
      refine h ?_
      have hnone : raw.rows[place.row]? = none := List.getElem?_eq_none (Nat.le_of_not_lt hge)
      simp [Sources.cell, hget, Batch.cell, hnone]
    exact mem_places.mpr ⟨raw, List.mk_mem_zipIdx_iff_getElem?.mpr hget, hrow⟩

theorem sourceValues_eq_ok_iff {α : Type} {read : Cell D → Except MergeError (Option α)}
    {rows : List At} {name : String} {column : schema.Column}
    (hcolumn : schema.indexOf? name = some column) {values : At → Option α} :
    sourceValues sources rows name read = .ok values ↔
      (∀ place ∈ rows, Reads read (sources.cell place column)) ∧
        values = fun place => readAs read (sources.cell place column) := by
  have hrows : rows.forM (fun place => do let _ ← read (sources.cell place column)) = .ok () ↔
      ∀ place ∈ rows, Reads read (sources.cell place column) := by
    rw [forM_eq_ok]
    refine forall₂_congr fun place _ => ?_
    rw [Reads, bind_eq_ok]
    simp [pure_eq_ok]
  have hindex : indexOf schema name = .ok column := by rw [indexOf, hcolumn]
  rw [sourceValues, hindex, ok_bind]
  constructor
  · intro h
    obtain ⟨⟨⟩, hforM, h⟩ := bind_eq_ok.mp h
    exact ⟨hrows.mp hforM, (pure_eq_ok.mp h).symm⟩
  · rintro ⟨hreads, rfl⟩
    exact bind_eq_ok.mpr ⟨(), hrows.mpr hreads, rfl⟩

end

namespace HistoryTable

variable {D : Type} {H : HistoryTable D} {sources : Sources D H.stored}

theorem reads_countedAs_iff {cell : Cell D} : Reads countedAs cell ↔
      ∀ value ∈ cell, ∃ n, value = .int n ∧ History.minInstant ≤ n ∧ n < 2 ^ 63 := by
  rcases cell with _ | ⟨n⟩ | _ | _ | _
  · simp [Reads, countedAs]
  · have hread : countedAs (some (.int n) : Cell D)
        = if History.minInstant ≤ n ∧ n < 2 ^ 63 then .ok (some n)
          else .error (.cast "Int64 is no count of Int64's units") := rfl
    rw [Reads, hread]
    split
    case isTrue hrange => simpa using hrange
    case isFalse hrange => simpa using hrange
  all_goals simp [Reads, countedAs]

theorem reads_flagOf_iff {cell : Cell D} :
    Reads flagOf cell ↔ ∀ value ∈ cell, ∃ flag, value = .bool flag := by
  rcases cell with _ | ⟨n⟩ | _ | _ | _ <;> simp [Reads, flagOf]

theorem readAs_countedAs {cell : Cell D} (h : Reads countedAs cell) :
    readAs countedAs cell = instant cell := by
  cases cell with
  | none => rfl
  | some value =>
    obtain ⟨n, rfl, hrange⟩ := reads_countedAs_iff.mp h value rfl
    rw [readAs, countedAs, if_pos hrange]
    rfl

theorem readAs_flagOf {cell : Cell D} (h : Reads flagOf cell) :
    (readAs flagOf cell).getD false = isSet cell := by
  cases cell with
  | none => rfl
  | some value =>
    obtain ⟨flag, rfl⟩ := reads_flagOf_iff.mp h value rfl
    rfl

/-! ## What guards a merge's rows -/

/-- Whether a merge reads what it compares and dates a row by. -/
structure ReadsRow (H : HistoryTable D) (row : Row D H.stored) : Prop where
  seq : Compares (row H.seqColumn)
  hash : Compares (row H.hashColumn)
  begins : Reads countedAs (row H.fromColumn)
  ends : Reads countedAs (row H.toColumn)

theorem forall_places {p : Row D H.stored → Prop} :
    (∀ place ∈ places 0 sources.list, p (sources.cell place)) ↔
      ∀ row ∈ readBack H.stored sources.list, p row := by
  rw [← map_cell_all, List.forall_mem_map]

theorem readAs_eq_instant {column : H.stored.Column}
    (h : ∀ place ∈ places 0 sources.list, Reads countedAs (sources.cell place column))
    (place : At) :
    readAs countedAs (sources.cell place column) = instant (sources.cell place column) := by
  by_cases hcell : sources.cell place column = none
  · rw [hcell]
    rfl
  · exact readAs_countedAs (h place (mem_places_of_cell hcell))

/-- The deletion times of the sources are read of the column that keeps them, where one does. -/
theorem guards_eq : Merge.guards sources H.key H.history = (do
      let rows := places 0 sources.list
      let seqs ← sourceBytes sources H.key.seq
      let hashes ← sourceHashes sources H.history.rowHash
      let begins ← sourceValues sources rows H.history.validFrom countedAs
      let ends ← sourceValues sources rows H.history.validTo countedAs
      pure
        { seq := seqs
          hash := hashes
          begins := fun place => (begins place).getD History.minInstant
          ends
          times := (H.guardsOf sources).times }) := by
  unfold Merge.guards guardsOf time
  cases htime : deletedAt H.key with
  | none => rfl
  | some name =>
    have hmem := (H.timed name htime).1
    have htimes : (fun place => !sources.isNull place (Schema.column H.stored name hmem))
        = fun place => (sources.cell place (Schema.column H.stored name hmem)).isSome :=
      funext fun place => by rw [Sources.isNull, Option.not_isNone]
    simp only [indexOf, Schema.indexOf?_column hmem, Option.bind_some, Option.map_some, ← htimes]
    rfl

theorem sourceHashes_eq {bytes : At → Bytes}
    (hbytes : sourceBytes sources H.history.rowHash = .ok bytes) :
    sourceHashes sources H.history.rowHash = .ok (H.guardsOf sources).hash := by
  have hcolumn := Schema.indexOf?_column (H.named H.history.rowHash (by simp))
  obtain ⟨-, rfl⟩ := (sourceBytes_eq_ok_iff hcolumn).mp hbytes
  rw [sourceHashes, hbytes, ok_bind]
  refine congrArg Except.ok (funext fun place => ?_)
  simp only [hcolumn, Option.any_some, Sources.isNull, guardsOf, life, hashColumn]
  cases hcell : sources.cell place (Schema.column H.stored H.history.rowHash _) <;> simp

/-- What a merge compares its rows by reads exactly when it does of every row. -/
theorem guards_eq_ok_iff {guards : History.Guards} :
    Merge.guards sources H.key H.history = .ok guards ↔
      (∀ row ∈ readBack H.stored sources.list, H.ReadsRow row) ∧ guards = H.guardsOf sources := by
  have hseq : H.stored.indexOf? H.key.seq = some H.seqColumn := Schema.indexOf?_column _
  have hhash : H.stored.indexOf? H.history.rowHash = some H.hashColumn := Schema.indexOf?_column _
  have hfrom : H.stored.indexOf? H.history.validFrom = some H.fromColumn := Schema.indexOf?_column _
  have hto : H.stored.indexOf? H.history.validTo = some H.toColumn := Schema.indexOf?_column _
  have hread :
      (∀ place ∈ places 0 sources.list, Reads countedAs (sources.cell place H.fromColumn)) →
      (∀ place ∈ places 0 sources.list, Reads countedAs (sources.cell place H.toColumn)) →
      { seq := fun place => comparedBytes (sources.cell place H.seqColumn)
        hash := (H.guardsOf sources).hash
        begins := fun place =>
          (readAs countedAs (sources.cell place H.fromColumn)).getD History.minInstant
        ends := fun place => readAs countedAs (sources.cell place H.toColumn)
        times := (H.guardsOf sources).times : History.Guards } = H.guardsOf sources := by
    intro hbegins hends
    simp only [readAs_eq_instant hbegins, readAs_eq_instant hends]
    rfl
  rw [guards_eq]
  constructor
  · intro h
    obtain ⟨seqs, hseqs, h⟩ := bind_eq_ok.mp h
    obtain ⟨hashes, hhashes, h⟩ := bind_eq_ok.mp h
    obtain ⟨begins, hbegins, h⟩ := bind_eq_ok.mp h
    obtain ⟨ends, hends, h⟩ := bind_eq_ok.mp h
    obtain ⟨bytes, hbytes, -⟩ := bind_eq_ok.mp hhashes
    cases hhashes.symm.trans (sourceHashes_eq hbytes)
    obtain ⟨hcompares, rfl⟩ := (sourceBytes_eq_ok_iff hseq).mp hseqs
    obtain ⟨hhashed, -⟩ := (sourceBytes_eq_ok_iff hhash).mp hbytes
    obtain ⟨hbegin, rfl⟩ := (sourceValues_eq_ok_iff hfrom).mp hbegins
    obtain ⟨hend, rfl⟩ := (sourceValues_eq_ok_iff hto).mp hends
    refine ⟨fun row hrow => ⟨hcompares row hrow, hhashed row hrow, ?_, ?_⟩, ?_⟩
    · exact (forall_places (p := fun row => Reads countedAs (row H.fromColumn))).mp hbegin row hrow
    · exact (forall_places (p := fun row => Reads countedAs (row H.toColumn))).mp hend row hrow
    · exact (pure_eq_ok.mp h).symm.trans (hread hbegin hend)
  · rintro ⟨hreads, rfl⟩
    have hbegins :
        ∀ place ∈ places 0 sources.list, Reads countedAs (sources.cell place H.fromColumn) :=
      forall_places.mpr fun row hrow => (hreads row hrow).begins
    have hends : ∀ place ∈ places 0 sources.list, Reads countedAs (sources.cell place H.toColumn) :=
      forall_places.mpr fun row hrow => (hreads row hrow).ends
    refine bind_eq_ok.mpr ⟨_, (sourceBytes_eq_ok_iff hseq).mpr
      ⟨fun row hrow => (hreads row hrow).seq, rfl⟩, ?_⟩
    refine bind_eq_ok.mpr ⟨_, sourceHashes_eq ((sourceBytes_eq_ok_iff hhash).mpr
      ⟨fun row hrow => (hreads row hrow).hash, rfl⟩), ?_⟩
    refine bind_eq_ok.mpr ⟨_, (sourceValues_eq_ok_iff hfrom).mpr ⟨hbegins, rfl⟩, ?_⟩
    refine bind_eq_ok.mpr ⟨_, (sourceValues_eq_ok_iff hto).mpr ⟨hends, rfl⟩, ?_⟩
    exact congrArg Except.ok (hread hbegins hends)

/-! ## The changes a merge reads -/

def changeOf (H : HistoryTable D) (sources : Sources D H.stored) (place : At) : Change where
  place
  op := H.opAt (sourceOf sources place) place.row
  seq := (H.guardsOf sources).seq place

def Admitted (H : HistoryTable D) (raw : Batch D) : Prop :=
  admitted raw (some H.stored) H.key = .ok ()

instance (raw : Batch D) : Decidable (H.Admitted raw) :=
  inferInstanceAs (Decidable (_ = _))

theorem Admitted.rowOps {raw : Batch D} (h : H.Admitted raw) :
    rowOps raw H.key = .ok ((List.range raw.numRows).map (H.opAt raw)) := by
  unfold Merge.rowOps opAt
  cases hchanges : H.key.changes with
  | none =>
    refine congrArg Except.ok ?_
    simp
  | some changes =>
    obtain ⟨list, hlist, -⟩ := (admitted_eq_ok_iff.mp h).2.2.2 changes hchanges
    exact hlist.trans (congrArg Except.ok (ops_eq hlist))

section

variable {published incoming : List (Batch D)} (hsources : sources.list = published ++ incoming)
include hsources

theorem historyChanges_eq (hadmitted : ∀ raw ∈ incoming, H.Admitted raw) :
    historyChanges incoming published.length H.key (H.guardsOf sources)
      = .ok (((places published.length incoming).map (H.changeOf sources)).insertionSort
          fun left right => appliesBefore left right) := by
  rw [← flatten_places]
  refine bind_eq_ok.mpr ⟨_, mapM_eq_ok_of_forall ?_, rfl⟩
  rintro ⟨raw, source⟩ hraw
  obtain ⟨hget, hmem, -⟩ := getElem?_source hsources hraw
  refine bind_eq_ok.mpr ⟨_, (hadmitted raw hmem).rowOps, ?_⟩
  rw [zipIdx_map_range, List.map_map]
  refine congrArg Except.ok (List.map_congr_left fun row _ => ?_)
  simp [changeOf, sourceOf, hget]

end

end HistoryTable

end Rdlt.Merge
