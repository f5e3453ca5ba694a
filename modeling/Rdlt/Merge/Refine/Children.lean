/-
  Rdlt.Merge.Refine.Children

  What a child table's merge publishes, root by root: of a root published again,
  the staged rows of its winning row; of any other root, what was published.
-/

import Rdlt.Merge.Children
import Rdlt.Merge.Refine.Upsert

namespace Rdlt.Merge

open Lib

variable {D : Type} {schema : Schema} {key : MergeKey}

/-! ## The winning sequences -/

def rootRows (root : RootKey) (roots : List (Batch D)) : List (Bytes × Bytes) :=
  roots.flatMap fun batch => (List.range batch.numRows).map fun row =>
    (comparedBytes (batch.cell row root.id), comparedBytes (batch.cell row root.seq))

/-- The greatest sequence of the rows of the root `id`; none where there is none. -/
def winningSeq (rows : List (Bytes × Bytes)) (id : Bytes) : Option Bytes :=
  (Lib.latest Prod.snd (rows.filter (·.1 = id))).map Prod.snd

def rootWinnersOf (rows : List (Bytes × Bytes)) : OrdMap Bytes Bytes :=
  rows.foldl (fun winners root => winners.insert root.1 (max (winners.getD root.1 []) root.2)) ∅

theorem rootWinners_rootWinnersOf (done : List (Bytes × Bytes)) (ids seqs : List Bytes) :
    rootWinners (rootWinnersOf done) ids seqs = rootWinnersOf (done ++ ids.zip seqs) := by
  rw [rootWinnersOf, rootWinnersOf, List.foldl_append]
  rfl

theorem max_eq_ite {σ : Type} [LinearOrder σ] (a b : σ) : max a b = if b ≤ a then a else b := by
  by_cases hle : b ≤ a
  · rw [if_pos hle, max_eq_left hle]
  · rw [if_neg hle, max_eq_right (le_of_not_ge hle)]

theorem nil_max (b : Bytes) : max [] b = b := by
  refine max_eq_right (le_of_not_gt fun h => ?_)
  cases h

theorem getElem?_rootWinnersOf (rows : List (Bytes × Bytes)) (id : Bytes) :
    (rootWinnersOf rows)[id]? = winningSeq rows id := by
  induction rows using List.reverseRecOn with
  | nil => simp [rootWinnersOf, winningSeq]
  | append_singleton rows root ih =>
    have hstep : rootWinnersOf (rows ++ [root]) = (rootWinnersOf rows).insert root.1
        (max ((rootWinnersOf rows).getD root.1 []) root.2) := by
      rw [rootWinnersOf, List.foldl_append]
      rfl
    rw [hstep, OrdMap.getElem?_insert, winningSeq, List.filter_append]
    by_cases hid : root.1 = id
    · subst hid
      rw [if_pos rfl, List.filter_singleton, decide_eq_true rfl, cond_true, latest_concat,
        Std.ExtTreeMap.getD_eq_getD_getElem?, ih, winningSeq]
      cases Lib.latest Prod.snd (rows.filter (·.1 = root.1)) with
      | none => simp [nil_max]
      | some best =>
        simp only [Option.map_some, Option.getD_some, max_eq_ite]
        by_cases hle : root.2 ≤ best.2 <;> simp [hle]
    · rw [if_neg hid, ih, List.filter_singleton, decide_eq_false hid, cond_false,
        List.append_nil, winningSeq]

/-! ## Reading the roots -/

theorem binary_eq_ok {batch : Batch D} {name : String} {bytes : List Bytes}
    (h : binary batch name = .ok bytes) : name ∈ batch.fields ∧
      bytes = (List.range batch.numRows).map fun row => comparedBytes (batch.cell row name) := by
  obtain ⟨hheld, h⟩ := ite_throw_bind_eq_ok.mp h
  refine ⟨by simpa [Batch.hasColumn] using hheld, ?_⟩
  rw [eq_map_of_mapM_eq_ok (fun cell bytes hcell => Tombstones.comparedBytes_of_ok hcell) h,
    Batch.column, List.map_map]
  rfl

theorem exists_binary_iff {batch : Batch D} {name : String} :
    (∃ bytes, binary batch name = .ok bytes)
      ↔ name ∈ batch.fields ∧ ∀ cell ∈ batch.column name, Compares cell := by
  have hread : (∃ bytes, binary batch name = .ok bytes)
      ↔ name ∈ batch.fields ∧ ∃ bytes, (batch.column name).mapM compared = .ok bytes := by
    simp only [binary, ite_throw_bind_eq_ok, Batch.hasColumn, Bool.not_eq_true',
      Bool.not_eq_false, List.contains_iff_mem, exists_and_left]
  rw [hread, exists_mapM_eq_ok_iff]
  rfl

theorem rootRows_eq_map_readBack {root : RootKey} (hid : root.id ∈ schema)
    (hseq : root.seq ∈ schema) (batches : List (Batch D)) : rootRows root batches
      = (readBack schema batches).map fun row => (bytesOf root.id row, bytesOf root.seq row) := by
  have hbytes : ∀ (batch : Batch D) (row : Nat) (name : String), name ∈ schema →
      bytesOf name (fun column : schema.Column => batch.cell row (schema.get column))
        = comparedBytes (batch.cell row name) := by
    intro batch row name hname
    obtain ⟨column, hcolumn⟩ := Schema.exists_indexOf? hname
    rw [bytesOf, hcolumn, Option.bind_some, Schema.get_of_indexOf? hcolumn]
  rw [rootRows, readBack, List.map_flatMap]
  refine List.flatMap_congr fun batch _ => ?_
  rw [readUnder, List.map_map]
  refine List.map_congr_left fun row _ => ?_
  rw [Function.comp_apply, hbytes batch row _ hid, hbytes batch row _ hseq]

/-- Reading the roots gives each root's greatest sequence. -/
theorem foldlM_rootWinners {rootType : Batch D → String → ColumnType}
    {childType : String → ColumnType} {root : RootKey} {column : String}
    {roots : List (Batch D)} {done : List (Bytes × Bytes)} {winners : OrdMap Bytes Bytes}
    (h : roots.foldlM (fun winners batch => do
        alike batch (rootType batch) root.id schema childType column
        alike batch (rootType batch) root.seq schema childType key.seq
        let ids ← binary batch root.id
        let seqs ← binary batch root.seq
        pure (rootWinners winners ids seqs))
      (rootWinnersOf done) = .ok winners) :
    winners = rootWinnersOf (done ++ rootRows root roots) := by
  induction roots generalizing done with
  | nil => simpa [rootRows, pure_eq_ok] using (pure_eq_ok.mp h).symm
  | cons batch roots ih =>
    rw [List.foldlM_cons] at h
    obtain ⟨next, hnext, h⟩ := bind_eq_ok.mp h
    obtain ⟨⟨⟩, -, hnext⟩ := bind_eq_ok.mp hnext
    obtain ⟨⟨⟩, -, hnext⟩ := bind_eq_ok.mp hnext
    obtain ⟨ids, hids, hnext⟩ := bind_eq_ok.mp hnext
    obtain ⟨seqs, hseqs, hnext⟩ := bind_eq_ok.mp hnext
    rw [← pure_eq_ok.mp hnext, rootWinners_rootWinnersOf] at h
    rw [ih h, (binary_eq_ok hids).2, (binary_eq_ok hseqs).2, List.zip_map', List.append_assoc]
    rfl

/-! ## The published rows -/

/-- What a child table's merge leaves of one root, of which `published` were the rows and
    `incoming` are staged, where the root's winning sequence is `winner`. -/
def followed (key : MergeKey) (winner : Option Bytes) (published incoming : List (Row D schema)) :
    List (Row D schema) :=
  match winner with
  | none => published
  | some seq => incoming.filter fun row => bytesOf key.seq row = seq

def ofRoot (column : String) (id : Bytes) (rows : List (Row D schema)) : List (Row D schema) :=
  rows.filter fun row => bytesOf column row = id

theorem places_append (first : Nat) (published incoming : List (Batch D)) :
    places first (published ++ incoming)
      = places first published ++ places (first + published.length) incoming := by
  induction published generalizing first with
  | nil => rfl
  | cons batch published ih =>
    rw [List.cons_append, places, ih, places, List.append_assoc, List.length_cons, Nat.add_assoc,
      Nat.add_comm 1]

theorem source_lt_of_mem_places {place : At} {published : List (Batch D)}
    (h : place ∈ places 0 published) : place.source < published.length := by
  obtain ⟨raw, hraw, -⟩ := mem_places.mp h
  exact (List.getElem?_eq_some_iff.mp (List.mk_mem_zipIdx_iff_le_and_getElem?_sub.mp hraw).2).1

theorem le_source_of_mem_places {place : At} {first : Nat} {incoming : List (Batch D)}
    (h : place ∈ places first incoming) : first ≤ place.source := by
  obtain ⟨raw, hraw, -⟩ := mem_places.mp h
  exact (List.mk_mem_zipIdx_iff_le_and_getElem?_sub.mp hraw).1

section

variable {rootType : Batch D → String → ColumnType} {childType : String → ColumnType}
  {published incoming roots rows : List (Batch D)} {root : RootKey} {column : String}

/-- Whether a child table's merge reads a batch of roots: their ids and sequences compare, and as
    the children's do. -/
def Readable (rootType : Batch D → String → ColumnType) (childType : String → ColumnType)
    (schema : Schema) (key : MergeKey) (root : RootKey) (column : String) (batch : Batch D) :
    Prop :=
  alike batch (rootType batch) root.id schema childType column = .ok () ∧
    alike batch (rootType batch) root.seq schema childType key.seq = .ok () ∧
    (∃ ids, binary batch root.id = .ok ids) ∧ ∃ seqs, binary batch root.seq = .ok seqs

theorem exists_foldlM_rootWinners_iff (winners : OrdMap Bytes Bytes) : (∃ read, roots.foldlM
        (fun winners batch => do
          alike batch (rootType batch) root.id schema childType column
          alike batch (rootType batch) root.seq schema childType key.seq
          let ids ← binary batch root.id
          let seqs ← binary batch root.seq
          pure (rootWinners winners ids seqs))
        winners = .ok read)
      ↔ ∀ batch ∈ roots, Readable rootType childType schema key root column batch := by
  refine exists_foldlM_eq_ok_iff fun winners batch => ?_
  simp only [bind_eq_ok, pure_eq_ok, Readable]
  constructor
  · rintro ⟨next, ⟨⟩, hid, ⟨⟩, hseq, ids, hids, seqs, hseqs, -⟩
    exact ⟨hid, hseq, ⟨ids, hids⟩, seqs, hseqs⟩
  · rintro ⟨hid, hseq, ⟨ids, hids⟩, seqs, hseqs⟩
    exact ⟨_, (), hid, (), hseq, ids, hids, seqs, hseqs, rfl⟩

theorem exists_mergeChildrenSparse_iff (hcolumn : key.columns.head? = some column)
    {owner seq : schema.Column} (howner : schema.indexOf? column = some owner)
    (hseq : schema.indexOf? key.seq = some seq) :
    (∃ rows, mergeChildrenSparse rootType childType schema published incoming key root roots
        = .ok rows) ↔ (∀ batch ∈ roots, Readable rootType childType schema key root column batch) ∧
          ∀ row ∈ readBack schema (published ++ incoming),
            Compares (row owner) ∧ Compares (row seq) := by
  rw [mergeChildrenSparse, hcolumn, ← exists_foldlM_rootWinners_iff ∅]
  simp only [bind_eq_ok, sourceBytes_eq_ok_iff howner, sourceBytes_eq_ok_iff hseq]
  constructor
  · rintro ⟨rows, winners, hwinners, owners, ⟨howners, -⟩, seqs, ⟨hseqs, -⟩, -⟩
    exact ⟨⟨winners, hwinners⟩, fun row hrow => ⟨howners row hrow, hseqs row hrow⟩⟩
  · rintro ⟨⟨winners, hwinners⟩, hrows⟩
    exact ⟨_, winners, hwinners, _, ⟨fun row hrow => (hrows row hrow).1, rfl⟩, _,
      ⟨fun row hrow => (hrows row hrow).2, rfl⟩, rfl⟩

section

variable (hschema : schema.Nodup) (hcolumn : key.columns.head? = some column)
  (h : mergeChildrenSparse rootType childType schema published incoming key root roots = .ok rows)
include hschema hcolumn h

/-- A child table's merge keeps the rows of roots not published again, and adds those of the
    winning rows. -/
theorem readBack_mergeChildrenSparse
 : (readBack schema rows).Perm ((readBack schema published).filter (fun row =>
          (winningSeq (rootRows root roots) (bytesOf column row)).isNone)
        ++ (readBack schema incoming).filter fun row =>
          winningSeq (rootRows root roots) (bytesOf column row) == some (bytesOf key.seq row)) := by
  rw [mergeChildrenSparse, hcolumn] at h
  obtain ⟨winners, hwinners, h⟩ := bind_eq_ok.mp h
  obtain ⟨owners, howners, h⟩ := bind_eq_ok.mp h
  obtain ⟨seqs, hseqs, h⟩ := bind_eq_ok.mp h
  obtain rfl := eq_bytesOf_of_sourceBytes howners
  obtain rfl := eq_bytesOf_of_sourceBytes hseqs
  obtain rfl := pure_eq_ok.mp h
  have hread : winners = rootWinnersOf ([] ++ rootRows root roots) := foldlM_rootWinners hwinners
  rw [List.nil_append] at hread
  refine (readBack_assemble_rows hschema _ _).trans (.of_eq ?_)
  rw [places_append, List.filter_append, List.map_append, Nat.zero_add,
    ← map_cell_published published incoming, List.filter_map]
  have hincoming : readBack schema incoming = (places published.length incoming).map
      (Sources.mk (published ++ incoming) : Sources D schema).cell := by
    simpa using (map_cell_places schema published incoming []).symm
  rw [hincoming, List.filter_map]
  refine congrArg₂ (· ++ ·) (congrArg _ ?_) (congrArg _ ?_)
  · refine List.filter_congr fun place hplace => ?_
    rw [if_pos (source_lt_of_mem_places hplace), hread, getElem?_rootWinnersOf]
    rfl
  · refine List.filter_congr fun place hplace => ?_
    rw [if_neg (not_lt.mpr (le_source_of_mem_places hplace)), hread, getElem?_rootWinnersOf]
    rfl

/-- The rows a child table's merge publishes of one root. -/
theorem ofRoot_mergeChildrenSparse (id : Bytes) : (ofRoot column id (readBack schema rows)).Perm
      (followed key (winningSeq (rootRows root roots) id)
        (ofRoot column id (readBack schema published))
        (ofRoot column id (readBack schema incoming))) := by
  refine ((readBack_mergeChildrenSparse hschema hcolumn h).filter _).trans (.of_eq ?_)
  rw [List.filter_append, List.filter_filter, List.filter_filter, ofRoot, ofRoot]
  -- rows of the root all have its winning sequence
  have hof : ∀ (l : List (Row D schema)) (p q : Row D schema → Bool),
      (∀ row, bytesOf column row = id → p row = q row) →
      l.filter (fun row => decide (bytesOf column row = id) && p row)
        = (l.filter fun row => decide (bytesOf column row = id)).filter q := by
    intro l p q hpq
    rw [List.filter_filter]
    refine List.filter_congr fun row _ => ?_
    by_cases hid : bytesOf column row = id
    · simp [hid, hpq row hid]
    · simp [hid]
  cases hwinner : winningSeq (rootRows root roots) id with
  | none =>
    rw [hof _ _ (fun _ => true) fun row hid => by rw [hid, hwinner]; rfl,
      hof _ _ (fun _ => false) fun row hid => by rw [hid, hwinner]; rfl]
    simp [followed]
  | some seq =>
    rw [hof _ _ (fun _ => false) fun row hid => by rw [hid, hwinner]; rfl,
      hof _ _ (fun row => decide (bytesOf key.seq row = seq)) fun row hid => by
        rw [hid, hwinner, Option.some_beq_some, beq_eq_decide]
        exact decide_eq_decide.mpr eq_comm]
    simp [followed]

end

end

end Rdlt.Merge
