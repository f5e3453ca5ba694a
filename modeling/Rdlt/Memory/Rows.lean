/-
  Rdlt.Memory.Rows

  A table's rows as its reader is given them, each by the names of its columns,
  and what a merge and a child table's merge publish of them. Rows kept under
  columns of the table read the same however many columns the table has.
-/

import Rdlt.Memory.Publish
import Rdlt.Merge.Refine.Children

namespace Rdlt.Memory

open Lib

open Merge

variable {D : Type} {schema : Schema} {childType : String → ColumnType} {root : RootKey}

/-! ## Rows by name -/

/-- A row by the names of its columns; null in a column it lacks. -/
abbrev NamedRow (D : Type) := String → Cell D

def named {schema : Schema} (row : Row D schema) : NamedRow D :=
  fun name => (schema.indexOf? name).bind row

/-- The rows of `batches` under every column of `schema`, by name. -/
def readNamed (schema : Schema) (batches : List (Batch D)) : List (NamedRow D) :=
  (readBack schema batches).map named

/-- The rows of `batches` by name, whichever columns they hold. -/
def namedRows (batches : List (Batch D)) : List (NamedRow D) :=
  batches.flatMap fun batch => (List.range batch.numRows).map batch.cell

/-- Every column of `batches` is one of `schema`. -/
def Within (schema : Schema) (batches : List (Batch D)) : Prop :=
  ∀ batch ∈ batches, ∀ name ∈ batch.fields, name ∈ schema

theorem Within.mono {wider : Schema} {batches : List (Batch D)} (h : Within schema batches)
    (hsub : schema ⊆ wider) : Within wider batches :=
  fun batch hbatch name hname => hsub (h batch hbatch name hname)

def NamedRow.bytes (name : String) (row : NamedRow D) : Bytes := comparedBytes (row name)

def NamedRow.key (key : MergeKey) (row : NamedRow D) : KeyCells D key :=
  fun index => row (key.columns.get index)

theorem named_readUnder {batch : Batch D} (hwithin : ∀ name ∈ batch.fields, name ∈ schema)
    (row : Nat) :
    named (fun column : schema.Column => batch.cell row (schema.get column)) = batch.cell row := by
  funext name
  unfold named
  cases hindex : schema.indexOf? name with
  | some column => rw [Option.bind_some, Schema.get_of_indexOf? hindex]
  | none =>
    refine (Batch.cell_of_not_mem batch row fun hmem => ?_).symm
    obtain ⟨column, hcolumn⟩ := Schema.exists_indexOf? (hwithin name hmem)
    rw [hindex] at hcolumn
    cases hcolumn

theorem readNamed_eq {batches : List (Batch D)} (h : Within schema batches) :
    readNamed schema batches = namedRows batches := by
  rw [readNamed, readBack, List.map_flatMap, namedRows]
  refine List.flatMap_congr fun batch hbatch => ?_
  rw [readUnder, List.map_map]
  exact List.map_congr_left fun row _ => named_readUnder (h batch hbatch) row

theorem within_assemble (sources : Sources D schema) (picks : List (Pick schema)) :
    Within schema (assemble sources picks) := by
  intro batch hbatch name hname
  obtain ⟨entry, -, rfl⟩ := List.mem_map.mp (List.mem_of_mem_filter hbatch)
  obtain ⟨column, -, rfl⟩ := List.mem_map.mp hname
  exact List.get_mem ..

variable {incoming published rows : List (Batch D)} {key : MergeKey}

theorem within_upsert {encode : KeyCells D key → Bytes}
    (h : upsert schema published incoming key encode = .ok rows) : Within schema rows := by
  obtain ⟨⟨⟩, -, h⟩ := bind_eq_ok.mp h
  obtain ⟨seqs, -, h⟩ := bind_eq_ok.mp h
  obtain rfl := pure_eq_ok.mp h
  exact within_assemble _ _

variable {rootType : Batch D → String → ColumnType} {roots : List (Batch D)}

theorem within_mergeChildrenSparse
    (h : mergeChildrenSparse rootType childType schema published incoming key root roots = .ok rows)
    : Within schema rows := by
  unfold mergeChildrenSparse at h
  split at h
  · cases h
  · obtain ⟨winners, -, h⟩ := bind_eq_ok.mp h
    obtain ⟨owners, -, h⟩ := bind_eq_ok.mp h
    obtain ⟨seqs, -, h⟩ := bind_eq_ok.mp h
    obtain rfl := pure_eq_ok.mp h
    exact within_assemble _ _

/-! ## Merges by name -/

def keyedBy (arrow : Arrow D) (key : MergeKey) (k : Bytes) (rows : List (NamedRow D)) :
    List (NamedRow D) :=
  rows.filter fun row => arrow.encode key (row.key key) = k

def rowsOf (column : String) (id : Bytes) (rows : List (NamedRow D)) : List (NamedRow D) :=
  rows.filter fun row => row.bytes column = id

theorem map_named_ofRoot (column : String) (id : Bytes) (batches : List (Batch D)) :
    (ofRoot column id (readBack schema batches)).map named
      = rowsOf column id (readNamed schema batches) := by
  rw [ofRoot, rowsOf, readNamed, List.filter_map]
  rfl

theorem map_named_ofKey (arrow : Arrow D) (key : MergeKey) (k : Bytes) (batches : List (Batch D)) :
    (ofKey key (arrow.encode key) k (readBack schema batches)).map named
      = keyedBy arrow key k (readNamed schema batches) := by
  rw [ofKey, keyedBy, readNamed, List.filter_map]
  rfl

theorem seq_mem_of_upsert {encode : KeyCells D key → Bytes}
    (h : upsert schema published incoming key encode = .ok rows) : key.seq ∈ schema := by
  obtain ⟨⟨⟩, hconverter, -⟩ := bind_eq_ok.mp h
  obtain ⟨-, hconverter⟩ := ite_throw_bind_eq_ok.mp hconverter
  obtain ⟨hseq, -⟩ := ite_throw_bind_eq_ok.mp hconverter
  simpa using hseq

theorem keyedBy_upsert (hschema : schema.Nodup) {arrow : Arrow D}
    (h : upsert schema published incoming key (arrow.encode key) = .ok rows) (k : Bytes) :
    (keyedBy arrow key k (readNamed schema rows)).Perm ((Lib.latest (NamedRow.bytes key.seq)
        (keyedBy arrow key k (readNamed schema incoming))).elim
          (keyedBy arrow key k (readNamed schema published)) ([·])) := by
  have hperm := (ofKey_upsert hschema h k).map named
  rw [map_named_ofKey] at hperm
  refine hperm.trans (.of_eq ?_)
  rw [← map_named_ofKey, ← map_named_ofKey, latest_map, upserted]
  have hseq : (NamedRow.bytes key.seq : NamedRow D → Bytes) ∘ (named : Row D schema → NamedRow D)
      = bytesOf key.seq := rfl
  rw [hseq]
  cases Lib.latest (bytesOf key.seq)
    (ofKey key (arrow.encode key) k (readBack schema incoming)) <;> rfl

theorem rowsOf_mergeChildrenSparse (hschema : schema.Nodup) {column : String}
    (hcolumn : key.columns.head? = some column)
    (h : mergeChildrenSparse rootType childType schema published incoming key root roots = .ok rows)
    (id : Bytes) : (rowsOf column id (readNamed schema rows)).Perm
      ((winningSeq (rootRows root roots) id).elim (rowsOf column id (readNamed schema published))
        fun seq => (rowsOf column id (readNamed schema incoming)).filter fun row =>
          row.bytes key.seq = seq) := by
  have hperm := (ofRoot_mergeChildrenSparse hschema hcolumn h id).map named
  rw [map_named_ofRoot] at hperm
  refine hperm.trans (.of_eq ?_)
  rw [← map_named_ofRoot, ← map_named_ofRoot]
  cases winningSeq (rootRows root roots) id with
  | none => rfl
  | some seq =>
    rw [Option.elim_some, List.filter_map]
    rfl

end Rdlt.Memory
