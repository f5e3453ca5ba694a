/-
  Rdlt.Merge.Refine.Upsert

  What an upsert publishes, key by key: of a key staged, the first of its rows
  of the greatest sequence alone; of any other key, what was published.
-/

import Rdlt.Lib.Latest
import Rdlt.Merge.Merge
import Rdlt.Merge.Refine.Sources

namespace Rdlt.Merge

open Lib

variable {D : Type} {schema : Schema} {key : MergeKey}

/-! ## What a row is compared by -/

variable (keys seqs : At → Bytes) (incoming : List At)

def keyOf (key : MergeKey) (row : Row D schema) : KeyCells D key :=
  fun index => (schema.indexOf? (key.columns.get index)).bind row

def bytesOf (name : String) (row : Row D schema) : Bytes :=
  comparedBytes ((schema.indexOf? name).bind row)

theorem eq_bytesOf_of_sourceBytes {sources : Sources D schema} {name : String}
    {bytes : At → Bytes} (h : sourceBytes sources name = .ok bytes) :
    bytes = fun place => bytesOf name (sources.cell place) := by
  cases hcolumn : schema.indexOf? name with
  | none => simp [sourceBytes, hcolumn] at h
  | some column =>
    rw [((sourceBytes_eq_ok_iff hcolumn).mp h).2]
    simp [bytesOf, hcolumn]

theorem readBack_assemble_rows (hschema : schema.Nodup) (sources : Sources D schema)
    (rows : List At) : (readBack schema (assemble sources (rows.map fun place =>
        { base := .row place, overlay := [] }))).Perm (rows.map sources.cell) := by
  refine (readBack_assemble_perm hschema sources _).trans ?_
  rw [List.map_map]
  exact .of_eq (List.map_congr_left fun place _ => rfl)

/-! ## The winning rows -/

/-- A key's winner is the first of its rows of the greatest sequence. -/
theorem getElem?_winners (k : Bytes) :
    (winners keys seqs incoming)[k]? = Lib.latest seqs (incoming.filter (keys · = k)) := by
  induction incoming using List.reverseRecOn with
  | nil => simp [winners]
  | append_singleton incoming place ih =>
    have hstep : winners keys seqs (incoming ++ [place])
        = ((winners keys seqs incoming)[keys place]?).elim
            ((winners keys seqs incoming).insert (keys place) place) fun best =>
              if seqs place ≤ seqs best then winners keys seqs incoming
              else (winners keys seqs incoming).insert (keys place) place := by
      rw [winners, List.foldl_append, List.foldl_cons, List.foldl_nil, ← winners]
      cases (winners keys seqs incoming)[keys place]? <;> rfl
    rw [hstep, List.filter_append]
    by_cases hkey : keys place = k
    · subst hkey
      rw [ih, List.filter_singleton, decide_eq_true rfl, cond_true, latest_concat]
      cases hbest : Lib.latest seqs (incoming.filter (keys · = keys place)) with
      | none => simp
      | some best => by_cases hle : seqs place ≤ seqs best <;> simp [hle, ih, hbest]
    · have hother : (winners keys seqs incoming)[k]? = ((winners keys seqs incoming).insert
          (keys place) place)[k]? := by
        rw [OrdMap.getElem?_insert, if_neg hkey]
      rw [List.filter_singleton, decide_eq_false hkey, cond_false, List.append_nil, ← ih]
      cases (winners keys seqs incoming)[keys place]? with
      | none => exact hother.symm
      | some best =>
        rw [Option.elim_some]
        split
        · rfl
        · exact hother.symm

theorem filter_winners (k : Bytes) :
    ((winners keys seqs incoming).toList.map Prod.snd).filter (keys · = k)
      = ((winners keys seqs incoming)[k]?).toList := by
  have hkeys : ∀ entry ∈ (winners keys seqs incoming).toList, keys entry.2 = entry.1 := by
    intro entry hentry
    rw [OrdMap.mem_toList, getElem?_winners] at hentry
    simpa using (List.mem_filter.mp (mem_of_latest hentry)).2
  have hfilter : (winners keys seqs incoming).toList.filter (fun entry => keys entry.2 = k)
      = (((winners keys seqs incoming)[k]?).map (k, ·)).toList := by
    rw [← toList_filter_key]
    refine List.filter_congr fun entry hentry => decide_eq_decide.mpr ?_
    rw [hkeys entry hentry]
  rw [List.filter_map, Function.comp_def, hfilter]
  cases (winners keys seqs incoming)[k]? <;> rfl

/-! ## The published rows -/

def upserted (key : MergeKey) (published incoming : List (Row D schema)) : List (Row D schema) :=
  match Lib.latest (bytesOf key.seq) incoming with
  | some row => [row]
  | none => published

def ofKey (key : MergeKey) (encode : KeyCells D key → Bytes) (k : Bytes)
    (rows : List (Row D schema)) : List (Row D schema) :=
  rows.filter fun row => encode (keyOf key row) = k

variable {encode : KeyCells D key → Bytes} {published : List (Batch D)}

theorem exists_upsert_iff {incoming : List (Batch D)} {column : schema.Column}
    (hseq : schema.indexOf? key.seq = some column) :
    (∃ rows, upsert schema published incoming key encode = .ok rows)
      ↔ converter schema key = .ok () ∧
          ∀ row ∈ readBack schema (published ++ incoming), Compares (row column) := by
  constructor
  · rintro ⟨rows, h⟩
    obtain ⟨⟨⟩, hconverter, h⟩ := bind_eq_ok.mp h
    obtain ⟨seqs, hseqs, -⟩ := bind_eq_ok.mp h
    exact ⟨hconverter, ((sourceBytes_eq_ok_iff hseq).mp hseqs).1⟩
  · rintro ⟨hconverter, hrows⟩
    exact ⟨_, bind_eq_ok.mpr ⟨(), hconverter, bind_eq_ok.mpr
      ⟨_, (sourceBytes_eq_ok_iff hseq).mpr ⟨hrows, rfl⟩, rfl⟩⟩⟩

theorem ofKey_upsert (hschema : schema.Nodup) {incoming rows : List (Batch D)}
    (h : upsert schema published incoming key encode = .ok rows) (k : Bytes) :
    (ofKey key encode k (readBack schema rows)).Perm
      (upserted key (ofKey key encode k (readBack schema published))
        (ofKey key encode k (readBack schema incoming))) := by
  obtain ⟨⟨⟩, -, h⟩ := bind_eq_ok.mp h
  obtain ⟨seqs, hseqs, h⟩ := bind_eq_ok.mp h
  obtain rfl := eq_bytesOf_of_sourceBytes hseqs
  obtain rfl := pure_eq_ok.mp h
  set sources : Sources D schema := { list := published ++ incoming }
  set keys : At → Bytes := fun place => encode (sources.keyCells key place)
  set seqs : At → Bytes := fun place => bytesOf key.seq (sources.cell place)
  set won := winners keys seqs (places published.length incoming)
  -- the winner of the key, as a row
  have hincoming : Lib.latest (bytesOf key.seq) (ofKey key encode k (readBack schema incoming))
      = (won[k]?).map sources.cell := by
    have hrows : readBack schema incoming
        = (places published.length incoming).map sources.cell := by
      simpa using (map_cell_places schema published incoming []).symm
    rw [getElem?_winners, ofKey, hrows, List.filter_map, latest_map]
    rfl
  refine ((readBack_assemble_rows hschema sources _).filter _).trans ?_
  rw [List.filter_map, List.filter_append, List.map_append]
  have hwon : ((won.toList.map Prod.snd).insertionSort fun left right => At.le left right).filter
      (fun place => encode (keyOf key (sources.cell place)) = k) |>.Perm (won[k]?).toList := by
    refine ((List.perm_insertionSort _ _).filter _).trans (.of_eq ?_)
    exact filter_winners keys seqs (places published.length incoming) k
  have hpublished : (ofKey key encode k (readBack schema published))
      = ((places 0 published).filter (keys · = k)).map sources.cell := by
    rw [ofKey, ← map_cell_published published incoming, List.filter_map]
    rfl
  refine (List.Perm.append_left _ (hwon.map _)).trans (.of_eq ?_)
  rw [upserted, hincoming, List.filter_filter]
  cases hget : won[k]? with
  | none =>
    -- no incoming row holds the key: its published rows stay
    rw [hpublished]
    simp only [Option.toList_none, List.map_nil, List.append_nil, Option.map_none]
    refine congrArg (List.map sources.cell) (List.filter_congr fun place _ => ?_)
    by_cases hkey : keys place = k
    · have habsent : won.contains (keys place) = false := by
        rw [hkey, OrdMap.contains_eq_false_iff, hget]
      have hheld : encode (keyOf key (sources.cell place)) = k := hkey
      simp [hheld, hkey, hkey ▸ habsent]
    · have hother : ¬ encode (keyOf key (sources.cell place)) = k := hkey
      simp [hother, hkey]
  | some winner =>
    have hnone : (places 0 published).filter (fun place =>
        ((fun row => decide (encode (keyOf key row) = k)) ∘ sources.cell) place
          && !won.contains (keys place)) = [] := by
      rw [List.filter_eq_nil_iff]
      intro place _ hheld
      simp only [Function.comp_apply, Bool.and_eq_true, decide_eq_true_eq, Bool.not_eq_true',
        OrdMap.contains_eq_false_iff] at hheld
      have hkey : keys place = k := hheld.1
      rw [hkey, hget] at hheld
      cases hheld.2
    rw [hnone]
    rfl

end Rdlt.Merge
