/-
  Rdlt.Merge.Refine.Table

  A change stream's table, key by key: the row the table holds of a key, once it
  has met the truncates it has not, is the key's row.
-/

import Rdlt.Merge.Keyed
import Rdlt.Merge.Refine.Tombstones

namespace Rdlt.Merge

open Lib

variable {α : Type}

/-! ## Truncates met late are truncates met at once -/

namespace Keyed

variable {ι V σ P : Type} [DecidableEq ι] [LinearOrder σ]

def Row.meet (layout : Layout ι) (pending : List (Change ι V σ P)) (row : Row ι V σ) :
    Option (Row ι V σ) :=
  pending.foldl (fun row truncate => row.bind (Row.truncate layout truncate)) (some row)

variable {layout : Layout ι}

theorem Row.meet_cons (first : Change ι V σ P) (rest : List (Change ι V σ P)) (row : Row ι V σ) :
    Row.meet layout (first :: rest) row
      = (Row.truncate layout first row).bind (Row.meet layout rest) := by
  rw [Row.meet, List.foldl_cons, Option.bind_some]
  cases Row.truncate layout first row with
  | none =>
    rw [Option.bind_none]
    induction rest with
    | nil => rfl
    | cons _ _ ih => exact ih
  | some row => rfl

theorem Row.meet_append (left right : List (Change ι V σ P)) (row : Row ι V σ) :
    Row.meet layout (left ++ right) row
      = (Row.meet layout left row).bind (Row.meet layout right) := by
  induction left generalizing row with
  | nil => rfl
  | cons first rest ih =>
    rw [List.cons_append, Row.meet_cons, Row.meet_cons]
    cases Row.truncate layout first row with
    | none => rfl
    | some row => exact ih row

variable {row : Row ι V σ}

theorem Row.truncate_of_le {change : Change ι V σ P} (h : change.seq ≤ row.seq) :
    Row.truncate layout change row = some row := by
  simp [Row.truncate, h]

theorem Row.meet_of_le {pending : List (Change ι V σ P)}
    (h : ∀ truncate ∈ pending, truncate.seq ≤ row.seq) :
    Row.meet layout pending row = some row := by
  induction pending with
  | nil => rfl
  | cons first rest ih =>
    rw [Row.meet_cons, Row.truncate_of_le (h first List.mem_cons_self), Option.bind_some]
    exact ih fun truncate htruncate => h truncate (List.mem_cons_of_mem _ htruncate)

/-- The row marked deleted: with the time of `timed` where it has none, and the sequence of
    `last`. -/
def Row.marked (layout : Layout ι) (time : ι) (timed last : Change ι V σ P) (row : Row ι V σ) :
    Row ι V σ where
  cells column :=
    if column = time ∧ (row.cells time).isNone then timed.cells column
    else if column = layout.seq then last.cells column
    else row.cells column
  seq := last.seq
  truncated := true

omit [LinearOrder σ] in
theorem Row.marked_mark {time : ι} (hne : time ≠ layout.seq) (first timed last : Change ι V σ P)
    (row : Row ι V σ) : (row.mark layout time first true).marked layout time timed last
      = row.marked layout time (if (first.cells time).isSome then first else timed) last := by
  have hcell : (row.mark layout time first true).cells time
      = if (row.cells time).isNone then first.cells time else row.cells time := by
    simp [Row.mark, hne]
  refine Row.ext ?_ rfl rfl
  funext column
  simp only [Row.marked, hcell]
  by_cases htime : column = time
  · subst htime
    cases hrow : row.cells column <;> cases hfirst : first.cells column <;>
      simp [hrow, hfirst, hne, Row.mark]
  · simp only [htime, false_and, if_false, Row.mark]
    split <;> rfl

theorem Row.meet_soft {time : ι} (htime : layout.time = some time) (hne : time ≠ layout.seq)
    {first last : Change ι V σ P} {rest : List (Change ι V σ P)}
    (hlast : (first :: rest).getLast? = some last) (hpast : row.seq < first.seq)
    (hsorted : (first :: rest).Pairwise (·.seq < ·.seq)) :
    Row.meet layout (first :: rest) row = some (row.marked layout time
          (((first :: rest).find? fun truncate => (truncate.cells time).isSome).getD
            last) last) := by
  induction rest generalizing first row with
  | nil =>
    cases hlast
    rw [Row.meet_cons, Row.truncate, if_pos hpast, htime]
    cases htimed : (first.cells time).isSome <;> simp [htimed] <;> rfl
  | cons second rest ih =>
    obtain ⟨hfirst, hrest⟩ := List.pairwise_cons.mp hsorted
    have hsecond : (row.mark layout time first true).seq < second.seq :=
      hfirst second List.mem_cons_self
    rw [Row.meet_cons, Row.truncate, if_pos hpast, htime, Option.map_some, Option.bind_some,
      ih (by simpa using hlast) hsecond hrest, Row.marked_mark hne]
    -- the first truncate decides the time where it says one, and else leaves it open
    cases htimed : first.cells time <;> simp [htimed]

end Keyed

variable {D : Type} {schema : Schema} {key : MergeKey}

/-! ## Merged rows -/

namespace MergedRow

def markBefore (left right : schema.Column × Option At) : Prop := left.1 ≤ right.1

instance : DecidableRel (@markBefore schema) :=
  fun _ _ => inferInstanceAs (Decidable (_ ≤ _))

instance : Std.Total (@markBefore schema) where
  total left right := le_total left.1 right.1

instance : IsTrans (schema.Column × Option At) markBefore where
  trans _ _ _ h h' := le_trans h h'

theorem find?_map_mark (marks : List (schema.Column × Option At)) (column : schema.Column)
    (place : At) (other : schema.Column) :
    (marks.map fun mark => if mark.1 == column then (column, some place) else mark).find?
        (fun mark => mark.1 == other)
      = (marks.find? fun mark => mark.1 == other).map fun mark =>
          if other = column then (column, some place) else mark := by
  have hfirst : (fun mark : schema.Column × Option At => mark.1 == other) ∘
      (fun mark => if mark.1 == column then (column, some place) else mark)
        = fun mark => mark.1 == other := by
    funext mark
    by_cases hcolumn : mark.1 = column <;> simp [hcolumn]
  rw [List.find?_map, hfirst]
  cases hfind : marks.find? (fun mark => mark.1 == other) with
  | none => rfl
  | some mark =>
    have hmark : mark.1 = other := by simpa using List.find?_some hfind
    simp [hmark]

theorem cell_mark (merged : MergedRow schema) (column other : schema.Column) (place : At) :
    (merged.mark column place).cell other
      = if other = column then some place else merged.cell other := by
  unfold mark
  by_cases hany : merged.marks.any fun mark => mark.1 == column
  · rw [if_pos hany, cell, find?_map_mark, cell]
    by_cases hother : other = column
    · subst hother
      have hfound : (merged.marks.find? fun mark => mark.1 == other).isSome := by
        rw [List.find?_isSome]
        exact List.any_eq_true.mp hany
      obtain ⟨mark, hmark⟩ := Option.isSome_iff_exists.mp hfound
      simp [hmark]
    · cases hfind : merged.marks.find? fun mark => mark.1 == other <;> simp [hother]
  · rw [if_neg hany, cell, cell]
    have hsorted :
        ((merged.marks ++ [(column, some place)]).insertionSort fun a b => a.1 ≤ b.1).find?
          (fun mark => mark.1 == other)
        = (merged.marks ++ [(column, some place)]).find? fun mark => mark.1 == other := by
      rw [← List.head?_filter, ← List.head?_filter]
      refine congrArg _ (filter_insertionSort_of_alike (r := markBefore) _ _ ?_)
      intro a b ha hb
      exact le_of_eq ((eq_of_beq ha).trans (eq_of_beq hb).symm)
    rw [hsorted, List.find?_append]
    by_cases hother : other = column
    · subst hother
      have hnone : merged.marks.find? (fun mark => mark.1 == other) = none := by
        rw [List.find?_eq_none]
        exact fun mark hmark hheld => hany (List.any_eq_true.mpr ⟨mark, hmark, hheld⟩)
      simp [hnone]
    · have hne : ¬ column = other := fun h => hother h.symm
      simp [hother, hne]

def value (sources : Sources D schema) (merged : MergedRow schema) :
    Keyed.Row schema.Column (Value D) Bytes where
  cells column := (merged.cell column).bind fun place => sources.cell place column
  seq := merged.seq
  truncated := merged.truncated

section

variable (sources : Sources D schema) (merged : MergedRow schema)

theorem value_pick : merged.pick.value sources = (merged.value sources).cells := by
  funext column
  obtain ⟨seq, cells, marks, met, truncated⟩ := merged
  simp only [Pick.value, Pick.cell, pick, value, cell]
  cases marks.find? (fun mark => mark.1 == column) with
  | some mark => rfl
  | none => cases cells <;> rfl

theorem isNull_cell (column : schema.Column) : Table.isNull sources (merged.cell column) column
      = ((merged.value sources).cells column).isNone := by
  cases hcell : merged.cell column <;> simp [Table.isNull, value, hcell, Sources.isNull]

theorem cells_mark (marked column : schema.Column) (place : At) :
    ((merged.mark marked place).value sources).cells column
      = if column = marked then sources.cell place column
        else (merged.value sources).cells column := by
  simp only [value, cell_mark]
  split <;> rfl

end

def markedBy (sources : Sources D schema) (merged : MergedRow schema) (seq time : schema.Column)
    (place timed : At) : MergedRow schema :=
  if Table.isNull sources (merged.cell time) time then (merged.mark seq place).mark time timed
  else merged.mark seq place

section

variable (sources : Sources D schema) (merged : MergedRow schema) (seq time : schema.Column)
  (place timed : At)

theorem met_markedBy : (merged.markedBy sources seq time place timed).met = merged.met := by
  unfold markedBy mark
  split_ifs <;> rfl

theorem cells_markedBy (column : schema.Column) :
    ((merged.markedBy sources seq time place timed).value sources).cells column
      = if column = time ∧ ((merged.value sources).cells time).isNone then sources.cell timed column
        else if column = seq then sources.cell place column
        else (merged.value sources).cells column := by
  rw [markedBy, isNull_cell]
  by_cases hnull : ((merged.value sources).cells time).isNone
  · rw [if_pos hnull, cells_mark, cells_mark]
    by_cases htime : column = time
    · rw [if_pos htime, if_pos ⟨htime, hnull⟩]
    · simp [htime]
  · simp [hnull, cells_mark]

end

end MergedRow

/-! ## The row of a key -/

def Columns.layout (columns : Columns schema) : Keyed.Layout schema.Column :=
  { seq := columns.seq, time := columns.time }

def Truncate.change (sources : Sources D schema) (key : MergeKey) (truncate : Truncate) :
    Keyed.Change schema.Column (Value D) Bytes (KeyCells D key) where
  op := .truncate
  seq := truncate.seq
  cells := sources.cell truncate.place
  kept _ := false
  names := sources.keyCells key truncate.place

variable {f : MergedRow schema → MergedRow schema}

namespace Table

variable {table : Table schema} {merged : MergedRow schema} {last : Truncate} {k : Bytes}
  {change : Change} {index : Nat}

/-- The row the table keeps of the key encoded `k`, whatever truncates it has met. -/
def held (table : Table schema) (k : Bytes) : Option (MergedRow schema) :=
  (table.byKey[k]?).bind fun index => (table.rows[index]?).join

/-- The truncates `merged` has not met. -/
def pending (sources : Sources D schema) (key : MergeKey) (table : Table schema)
    (merged : MergedRow schema) :
    List (Keyed.Change schema.Column (Value D) Bytes (KeyCells D key)) :=
  (table.truncates.drop merged.met).map (Truncate.change sources key)

def rowOf (sources : Sources D schema) (key : MergeKey) (table : Table schema) (k : Bytes) :
    Option (Keyed.Row schema.Column (Value D) Bytes) :=
  (table.held k).bind fun merged =>
    (merged.value sources).meet table.columns.layout (table.pending sources key merged)

/-- `merged` is a row of the table that has met the first of its truncates, none of them past it. -/
def Meets (table : Table schema) (merged : MergedRow schema) : Prop :=
  merged.met ≤ table.truncates.length ∧
    ∀ truncate ∈ table.truncates.take merged.met, truncate.seq ≤ merged.seq

/-- What a table keeps while its changes apply: a slot for each key and a key for each row, its
    truncates in sequence order, those a row has met not past it, and by `timed` the first from a
    place on that says when. -/
structure WF (sources : Sources D schema) (table : Table schema) : Prop where
  inRange : ∀ (k : Bytes) index, table.byKey[k]? = some index → index < table.rows.length
  injective :
    ∀ (k k' : Bytes) index, table.byKey[k]? = some index → table.byKey[k']? = some index → k = k'
  slotted : ∀ (index : Nat) (merged : MergedRow schema), table.rows[index]? = some (some merged) →
    ∃ k : Bytes, table.byKey[k]? = some index
  ascending : table.truncates.Pairwise fun left right => left.seq < right.seq
  met : ∀ (index : Nat) (merged : MergedRow schema), table.rows[index]? = some (some merged) →
    table.Meets merged
  timedLt : ∀ position ∈ table.timed, position < table.truncates.length
  timed : ∀ time, table.columns.time = some time → ∀ first ≤ table.truncates.length,
    ((table.timed[partitionPoint (fun position => position < first) table.timed]?).bind
        fun position => table.truncates[position]?)
      = (table.truncates.drop first).find? fun truncate => !sources.isNull truncate.place time
  apart : ∀ time, table.columns.time = some time → time ≠ table.columns.seq

/-- No truncate recorded is past `seq`. -/
def TruncatedBy (table : Table schema) (seq : Bytes) : Prop :=
  ∀ truncate ∈ table.truncates, truncate.seq ≤ seq

variable {sources : Sources D schema}

theorem TruncatedBy.meets (h : table.TruncatedBy merged.seq)
    (hmet : merged.met ≤ table.truncates.length) : table.Meets merged :=
  ⟨hmet, fun truncate htruncate => h truncate (List.mem_of_mem_take htruncate)⟩

theorem before_iff {σ : Type} [LinearOrder σ] {truncate row : σ} :
    before truncate row ↔ truncate ≤ row := by
  simp [before]

theorem not_of_dropWhile_eq_cons {p : α → Bool} {l rest : List α} {a : α}
    (h : l.dropWhile p = a :: rest) : ¬ p a := by
  induction l with
  | nil => simp at h
  | cons b l ih =>
    rw [List.dropWhile_cons] at h
    split at h
    · exact ih h
    · rename_i hb
      cases h
      exact hb

theorem metRow_of_le (last : Truncate) (hmet : merged.met ≤ table.truncates.length)
    (hle : ∀ truncate ∈ table.truncates.drop merged.met, truncate.seq ≤ merged.seq) :
    table.metRow sources last merged = some { merged with met := table.truncates.length } := by
  have hall : (table.truncates.drop merged.met).takeWhile
      (fun truncate => before truncate.seq merged.seq) = table.truncates.drop merged.met :=
    List.takeWhile_eq_self_iff.mpr fun truncate htruncate => before_iff.mpr (hle truncate htruncate)
  have hfirst : merged.met + partitionPoint (fun truncate => before truncate.seq merged.seq)
      (table.truncates.drop merged.met) = table.truncates.length := by
    rw [partitionPoint, hall, List.length_drop]
    omega
  rw [metRow, if_pos hfirst]

/-- Where the truncates from the place `first` on are past it, a row is removed or marked. -/
theorem metRow_of_lt (hwf : table.WF sources) {first : Nat}
    (hfirst : merged.met + partitionPoint (fun truncate => before truncate.seq merged.seq)
      (table.truncates.drop merged.met) = first)
    (hlt : first < table.truncates.length) :
    table.metRow sources last merged
      = table.columns.time.map fun time =>
          { merged.markedBy sources table.columns.seq time last.place
              (((table.truncates.drop first).find? fun truncate =>
                !sources.isNull truncate.place time).getD last).place with
            seq := last.seq, met := table.truncates.length, truncated := true } := by
  rw [metRow, hfirst, if_neg hlt.ne]
  cases htime : table.columns.time with
  | none => rfl
  | some time =>
    have htimed : ((table.timed[partitionPoint (fun position => position < first)
          table.timed]?).bind fun position =>
            (table.truncates[position]?).map Truncate.place).getD last.place
        = (((table.truncates.drop first).find? fun truncate =>
            !sources.isNull truncate.place time).getD last).place := by
      rw [← hwf.timed time htime first hlt.le]
      cases table.timed[partitionPoint (fun position => position < first) table.timed]? with
      | none => rfl
      | some position => cases hget : table.truncates[position]? <;> simp [hget]
    simp only [htimed]
    rfl

section

variable (hwf : table.WF sources) (hlast : table.truncates.getLast? = some last)
include hwf hlast

/-- What meeting the truncates leaves of a row is what meeting each at once leaves. -/
theorem metRow_value (hmet : merged.met ≤ table.truncates.length) :
    (table.metRow sources last merged).map (MergedRow.value sources)
      = (merged.value sources).meet table.columns.layout (table.pending sources key merged) := by
  have hsplit := List.takeWhile_append_dropWhile
    (p := fun truncate : Truncate => before truncate.seq merged.seq)
    (l := table.truncates.drop merged.met)
  generalize hpassed : (table.truncates.drop merged.met).takeWhile
    (fun truncate => before truncate.seq merged.seq) = passed at hsplit
  have hbefore : ∀ truncate ∈ passed, truncate.seq ≤ merged.seq := by
    intro truncate htruncate
    rw [← hpassed] at htruncate
    exact before_iff.mp (List.mem_takeWhile_imp
      (p := fun truncate : Truncate => before truncate.seq merged.seq) htruncate)
  have hleft : (merged.value sources).meet table.columns.layout
      (passed.map (Truncate.change sources key)) = some (merged.value sources) := by
    refine Keyed.Row.meet_of_le fun truncate htruncate => ?_
    obtain ⟨held, hheld, rfl⟩ := List.mem_map.mp htruncate
    exact hbefore held hheld
  cases hpast : (table.truncates.drop merged.met).dropWhile
      (fun truncate => before truncate.seq merged.seq) with
  | nil =>
    rw [hpast, List.append_nil] at hsplit
    rw [metRow_of_le last hmet (hsplit ▸ hbefore), pending, ← hsplit, hleft]
    rfl
  | cons next rest =>
    have hnext : merged.seq < next.seq := by
      have hnot := not_of_dropWhile_eq_cons hpast
      rw [before_iff] at hnot
      exact not_le.mp hnot
    rw [hpast] at hsplit
    have hdrop : table.truncates.drop (merged.met + passed.length) = next :: rest := by
      rw [← List.drop_drop, ← hsplit, List.drop_left]
    have hlt : merged.met + passed.length < table.truncates.length := by
      have hlength := congrArg List.length hdrop
      simp only [List.length_drop, List.length_cons] at hlength
      omega
    rw [metRow_of_lt hwf (by rw [partitionPoint, hpassed]) hlt, hdrop, pending, ← hsplit,
      List.map_append, Keyed.Row.meet_append, hleft, Option.bind_some, List.map_cons]
    cases htime : table.columns.time with
    | none =>
      have hlayout : table.columns.layout.time = none := htime
      have hpast : (merged.value sources).seq < (next.change sources key).seq := hnext
      simp [Keyed.Row.meet_cons, Keyed.Row.truncate, hpast, hlayout]
    | some time =>
      have hsorted : ((next :: rest).map (Truncate.change sources key)).Pairwise
          fun left right => left.seq < right.seq := by
        rw [List.pairwise_map, ← hdrop]
        exact hwf.ascending.drop
      have hlast' : ((next :: rest).map (Truncate.change sources key)).getLast?
          = some (last.change sources key) := by
        rw [List.getLast?_map, ← hdrop, List.getLast?_drop, if_neg (by omega), hlast]
        rfl
      rw [Keyed.Row.meet_soft htime (hwf.apart time htime) hlast' hnext hsorted,
        ← List.map_cons, List.find?_map]
      refine congrArg some (Keyed.Row.ext ?_ rfl rfl)
      funext column
      have htimed : (fun truncate => (truncate.cells time).isSome) ∘
          Truncate.change (D := D) sources key
            = fun truncate => !sources.isNull truncate.place time := by
        funext truncate
        simp [Truncate.change, Sources.isNull]
      rw [htimed, Option.getD_map]
      exact MergedRow.cells_markedBy sources merged table.columns.seq time last.place _ column

theorem WF.le_last {truncate : Truncate} (htruncate : truncate ∈ table.truncates) :
    truncate.seq ≤ last.seq := by
  obtain ⟨init, hinit⟩ := List.getLast?_eq_some_iff.mp hlast
  have hsorted := hwf.ascending
  rw [hinit, List.pairwise_append] at hsorted
  rw [hinit] at htruncate
  rcases List.mem_append.mp htruncate with hmem | hmem
  · exact (hsorted.2.2 truncate hmem last List.mem_cons_self).le
  · rw [List.mem_singleton.mp hmem]

/-- A row that met every truncate is before none. -/
theorem metRow_met {merged' : MergedRow schema} (hmeets : table.Meets merged)
    (h : table.metRow sources last merged = some merged') :
    merged'.met = table.truncates.length ∧ table.TruncatedBy merged'.seq := by
  by_cases hall : ∀ truncate ∈ table.truncates.drop merged.met, truncate.seq ≤ merged.seq
  · rw [metRow_of_le last hmeets.1 hall] at h
    cases h
    refine ⟨rfl, fun truncate htruncate => ?_⟩
    rw [← List.take_append_drop merged.met table.truncates] at htruncate
    exact (List.mem_append.mp htruncate).elim (hmeets.2 truncate) (hall truncate)
  · have hlt : merged.met + partitionPoint (fun truncate => before truncate.seq merged.seq)
        (table.truncates.drop merged.met) < table.truncates.length := by
      have hle := (List.takeWhile_prefix (l := table.truncates.drop merged.met)
        fun truncate => before truncate.seq merged.seq)
      have hne : ((table.truncates.drop merged.met).takeWhile
          fun truncate => before truncate.seq merged.seq).length
            ≠ (table.truncates.drop merged.met).length := by
        intro hlength
        refine hall fun truncate htruncate => ?_
        rw [← hle.eq_of_length hlength] at htruncate
        exact before_iff.mp (List.mem_takeWhile_imp
          (p := fun truncate : Truncate => before truncate.seq merged.seq) htruncate)
      have hlength := hle.length_le
      simp only [List.length_drop] at hne hlength
      simp only [partitionPoint]
      omega
    rw [metRow_of_lt hwf rfl hlt, Option.map_eq_some_iff] at h
    obtain ⟨time, -, rfl⟩ := h
    exact ⟨rfl, fun truncate htruncate => hwf.le_last hlast htruncate⟩

end

/-! ## Meeting the truncates -/

theorem WF.withRows (hwf : table.WF sources)
    {rows : List (Option (MergedRow schema))} (hlength : rows.length = table.rows.length)
    (hslots : ∀ (index : Nat) (merged : MergedRow schema), rows[index]? = some (some merged) →
      (∃ k : Bytes, table.byKey[k]? = some index) ∧ table.Meets merged) :
    WF sources { table with rows } where
  inRange k index hindex := hlength ▸ hwf.inRange k index hindex
  injective := hwf.injective
  slotted index merged hmerged := (hslots index merged hmerged).1
  ascending := hwf.ascending
  met index merged hmerged := (hslots index merged hmerged).2
  timedLt := hwf.timedLt
  timed := hwf.timed
  apart := hwf.apart

section

variable (table)

@[simp] theorem columns_meet (index : Nat) :
    (table.meet sources index).columns = table.columns := by
  unfold Table.meet
  split <;> rfl

@[simp] theorem truncates_meet (index : Nat) :
    (table.meet sources index).truncates = table.truncates := by
  unfold Table.meet
  split <;> rfl

@[simp] theorem byKey_meet (index : Nat) : (table.meet sources index).byKey = table.byKey := by
  unfold Table.meet
  split <;> rfl

end

theorem rows_meet (hlast : table.truncates.getLast? = some last) (index : Nat) :
    table.meet sources index = { table with
          rows := table.rows.modify index fun slot => slot.bind (table.metRow sources last) } := by
  rw [meet, hlast]

theorem meet_of_truncates_nil (hnil : table.truncates.getLast? = none)
    (index : Nat) : table.meet sources index = table := by
  rw [meet, hnil]

theorem WF.meet (hwf : table.WF sources) (index : Nat) : (table.meet sources index).WF sources := by
  cases hlast : table.truncates.getLast? with
  | none => rwa [meet_of_truncates_nil hlast]
  | some last =>
    rw [rows_meet hlast]
    refine hwf.withRows (by simp) fun other merged' hmerged' => ?_
    rw [List.getElem?_modify] at hmerged'
    obtain ⟨slot, hslot, hmodify⟩ := Option.map_eq_some_iff.mp hmerged'
    split at hmodify
    · obtain ⟨merged, rfl, hmet⟩ := Option.bind_eq_some_iff.mp hmodify
      obtain ⟨hall, hpast⟩ := metRow_met hwf hlast (hwf.met other merged hslot) hmet
      exact ⟨hwf.slotted other merged hslot, hpast.meets hall.le⟩
    · cases hmodify
      exact ⟨hwf.slotted other merged' hslot, hwf.met other merged' hslot⟩

theorem mem_rows_of_held (h : table.held k = some merged) :
    ∃ index, table.byKey[k]? = some index ∧ table.rows[index]? = some (some merged) := by
  obtain ⟨index, hindex, hjoin⟩ := Option.bind_eq_some_iff.mp h
  exact ⟨index, hindex, Option.join_eq_some_iff.mp hjoin⟩

theorem WF.meets_of_held (hwf : table.WF sources) (h : table.held k = some merged) :
    table.Meets merged := by
  obtain ⟨index, -, hslot⟩ := mem_rows_of_held h
  exact hwf.met index merged hslot

/-- The row in the slot at `index`, where there is one, has met every truncate. -/
def MetAt (table : Table schema) (index : Nat) : Prop :=
  ∀ merged : MergedRow schema, table.rows[index]? = some (some merged) →
    merged.met = table.truncates.length

theorem MetAt.meet (hwf : table.WF sources) {other : Nat}
    (hmet : index = other ∨ table.MetAt index) : (table.meet sources other).MetAt index := by
  intro merged' hmerged'
  cases hlast : table.truncates.getLast? with
  | none =>
    have hnil : table.truncates = [] := List.getLast?_eq_none_iff.mp hlast
    rw [meet_of_truncates_nil hlast] at hmerged' ⊢
    have hle := (hwf.met index merged' hmerged').1
    rw [hnil] at hle ⊢
    exact Nat.le_zero.mp hle
  | some last =>
    rw [rows_meet hlast] at hmerged' ⊢
    rw [List.getElem?_modify] at hmerged'
    obtain ⟨slot, hslot, hmodify⟩ := Option.map_eq_some_iff.mp hmerged'
    split at hmodify
    · obtain ⟨merged, rfl, hmerged⟩ := Option.bind_eq_some_iff.mp hmodify
      exact (metRow_met hwf hlast (hwf.met index merged hslot) hmerged).1
    · rename_i hother
      cases hmodify
      exact (hmet.resolve_left fun h => hother h.symm) merged' hslot

theorem held_meet (hlast : table.truncates.getLast? = some last) (index : Nat) (k : Bytes) :
    (table.meet sources index).held k = (table.held k).bind fun merged =>
      if table.byKey[k]? = some index then table.metRow sources last merged else some merged := by
  rw [rows_meet hlast]
  unfold held
  cases hk : table.byKey[k]? with
  | none => simp
  | some other =>
    simp only [Option.bind_some, List.getElem?_modify, Option.some.injEq]
    cases hslot : table.rows[other]? with
    | none => simp
    | some slot =>
      by_cases hother : other = index
      · subst hother
        cases slot <;> simp
      · have hne : ¬ index = other := fun h => hother h.symm
        cases slot <;> simp [hother, hne]

theorem rowOf_meet (hwf : table.WF sources) (index : Nat) (k : Bytes) :
    (table.meet sources index).rowOf sources key k = table.rowOf sources key k := by
  cases hlast : table.truncates.getLast? with
  | none => rw [meet_of_truncates_nil hlast]
  | some last =>
    rw [rowOf, held_meet hlast, rowOf, columns_meet, Option.bind_assoc]
    refine Option.bind_congr fun merged hmerged => ?_
    have hmeets := hwf.meets_of_held hmerged
    split
    · -- the row met has none left to meet
      rw [← metRow_value hwf hlast hmeets.1]
      cases hmet : table.metRow sources last merged with
      | none => rfl
      | some merged' =>
        have hall := (metRow_met hwf hlast hmeets hmet).1
        rw [Option.bind_some, pending, truncates_meet, hall, List.drop_length]
        rfl
    · simp [pending]

/-! ## Recording a truncate -/

theorem getElem?_partitionPoint (p : α → Bool) (l : List α) :
    l[partitionPoint p l]? = (l.dropWhile p).head? := by
  unfold partitionPoint
  induction l with
  | nil => rfl
  | cons a l ih => by_cases ha : p a <;> simp [ha, ih]

/-- The places found from `first` on, once one more truncate is recorded. -/
theorem timed_append {truncates : List Truncate} {timed : List Nat} {p : Truncate → Bool}
    (hlt : ∀ position ∈ timed, position < truncates.length) (htimed : ∀ first ≤ truncates.length,
      ((timed[partitionPoint (fun position => position < first) timed]?).bind fun position =>
        truncates[position]?) = (truncates.drop first).find? p) (last : Truncate)
    {first : Nat} (hfirst : first ≤ (truncates ++ [last]).length) :
    let timed' := if p last then timed ++ [truncates.length] else timed
    ((timed'[partitionPoint (fun position => position < first) timed']?).bind fun position =>
        (truncates ++ [last])[position]?) = ((truncates ++ [last]).drop first).find? p := by
  have hold : ∀ position ∈ timed, (truncates ++ [last])[position]? = truncates[position]? :=
    fun position hposition => List.getElem?_append_left (hlt position hposition)
  intro timed'
  by_cases hwithin : first ≤ truncates.length
  · have hfind := htimed first hwithin
    rw [getElem?_partitionPoint] at hfind ⊢
    rw [List.drop_append_of_le_length hwithin, List.find?_append, ← hfind]
    cases hdrop : timed.dropWhile (fun position => position < first) with
    | nil =>
      by_cases hp : p last
      · simp [timed', hp, List.dropWhile_append, hdrop, hwithin]
      · simp [timed', hp, hdrop]
    | cons position rest =>
      have hposition : position ∈ timed :=
        (List.dropWhile_sublist _).subset (hdrop ▸ List.mem_cons_self)
      have hheld : truncates[position]? = some (truncates.get ⟨position, hlt position hposition⟩) :=
        List.getElem?_eq_getElem _
      by_cases hp : p last
      · simp [timed', hp, List.dropWhile_append, hdrop, hold position hposition, hheld]
      · simp [timed', hp, hdrop, hold position hposition, hheld]
  · have hbeyond : (truncates ++ [last]).drop first = [] := by
      apply List.drop_eq_nil_of_le
      simp only [List.length_append, List.length_singleton] at hfirst ⊢
      omega
    have hall : timed'.dropWhile (fun position => position < first) = [] := by
      rw [List.dropWhile_eq_nil_iff]
      intro position hposition
      have hle : position ≤ truncates.length := by
        simp only [timed'] at hposition
        split at hposition
        · rcases List.mem_append.mp hposition with hmem | hmem
          · exact (hlt position hmem).le
          · exact (List.mem_singleton.mp hmem).le
        · exact (hlt position hposition).le
      simp only [decide_eq_true_eq]
      omega
    rw [getElem?_partitionPoint, hall, hbeyond]
    rfl

theorem WF.truncate (hwf : table.WF sources)
    (hle : table.TruncatedBy change.seq) : (table.truncate sources change).WF sources := by
  unfold Table.truncate
  split
  · exact hwf
  · rename_i hnew
    have hlt : ∀ truncate ∈ table.truncates, truncate.seq < change.seq := by
      intro truncate htruncate
      cases hlast : table.truncates.getLast? with
      | none => simp [List.getLast?_eq_none_iff.mp hlast] at htruncate
      | some last =>
        have hne : last.seq ≠ change.seq := by simpa [hlast] using hnew
        have hlast' := hle last (List.mem_of_getLast? hlast)
        exact (hwf.le_last hlast htruncate).trans_lt (lt_of_le_of_ne hlast' hne)
    refine ⟨hwf.inRange, hwf.injective, hwf.slotted, ?_, ?_, ?_, ?_, hwf.apart⟩
    · rw [List.pairwise_append]
      refine ⟨hwf.ascending, List.pairwise_singleton _ _, fun truncate htruncate other hother => ?_⟩
      rw [List.mem_singleton.mp hother]
      exact hlt truncate htruncate
    · intro index merged hmerged
      obtain ⟨hmet, hpassed⟩ := hwf.met index merged hmerged
      refine ⟨hmet.trans (by simp), ?_⟩
      rwa [List.take_append_of_le_length hmet]
    · intro position hposition
      rw [List.length_append, List.length_singleton]
      dsimp only at hposition
      split at hposition
      · rcases List.mem_append.mp hposition with hmem | hmem
        · exact (hwf.timedLt position hmem).trans (Nat.lt_succ_self _)
        · rw [List.mem_singleton.mp hmem]
          exact Nat.lt_succ_self _
      · exact (hwf.timedLt position hposition).trans (Nat.lt_succ_self _)
    · intro time htime first hfirst
      have htimed := timed_append (p := fun truncate => !sources.isNull truncate.place time)
        hwf.timedLt (hwf.timed time htime) { seq := change.seq, place := change.place } hfirst
      rw [show table.columns.time = some time from htime]
      exact htimed

@[simp] theorem columns_truncate (table : Table schema) (change : Change) :
    (table.truncate sources change).columns = table.columns := by
  unfold Table.truncate
  split <;> rfl

theorem TruncatedBy.truncate (hle : table.TruncatedBy change.seq) :
    (table.truncate sources change).TruncatedBy change.seq := by
  unfold Table.truncate
  split
  · exact hle
  · intro truncate htruncate
    rcases List.mem_append.mp htruncate with hmem | hmem
    · exact hle truncate hmem
    · rw [List.mem_singleton.mp hmem]

theorem le_of_rowOf (hwf : table.WF sources)
    {row : Keyed.Row schema.Column (Value D) Bytes} (hrow : table.rowOf sources key k = some row) :
    table.TruncatedBy row.seq := by
  obtain ⟨merged, hmerged, hmeet⟩ := Option.bind_eq_some_iff.mp hrow
  have hmeets := hwf.meets_of_held hmerged
  cases hlast : table.truncates.getLast? with
  | none => simp [TruncatedBy, List.getLast?_eq_none_iff.mp hlast]
  | some last =>
    rw [← metRow_value hwf hlast hmeets.1, Option.map_eq_some_iff] at hmeet
    obtain ⟨merged', hmerged', rfl⟩ := hmeet
    exact (metRow_met hwf hlast hmeets hmerged').2

/-- Recording a truncate does to every key's row what a truncate does. -/
theorem rowOf_truncate (hwf : table.WF sources) (k : Bytes) :
    (table.truncate sources change).rowOf sources key k
      = (table.rowOf sources key k).bind (Keyed.Row.truncate table.columns.layout
          (Truncate.change sources key { seq := change.seq, place := change.place })) := by
  by_cases hnew : table.truncates.getLast?.any fun last => last.seq == change.seq
  · -- a second truncate of one sequence finds no row before it
    rw [Table.truncate, if_pos hnew]
    cases hrow : table.rowOf sources key k with
    | none => rfl
    | some row =>
      obtain ⟨last, hlast, hseq⟩ : ∃ last, table.truncates.getLast? = some last ∧
          (last.seq == change.seq) = true := by
        simpa only [Option.any_eq_true] using hnew
      have hle := le_of_rowOf hwf hrow last (List.mem_of_getLast? hlast)
      rw [eq_of_beq hseq] at hle
      exact (Keyed.Row.truncate_of_le hle).symm
  · rw [Table.truncate, if_neg hnew, rowOf, rowOf, Option.bind_assoc]
    refine Option.bind_congr fun merged hmerged => ?_
    rw [pending, List.drop_append_of_le_length (hwf.meets_of_held hmerged).1, List.map_append,
      Keyed.Row.meet_append]
    refine Option.bind_congr fun row _ => ?_
    rw [List.map_singleton, Keyed.Row.meet_cons]
    cases Keyed.Row.truncate table.columns.layout
      (Truncate.change sources key { seq := change.seq, place := change.place }) row <;> rfl

/-! ## Putting a row -/

theorem WF.put (hwf : table.WF sources) (k : Bytes) (hmeets : table.Meets merged) :
    (table.put k merged).WF sources := by
  unfold Table.put
  split
  case h_1 index hindex =>
    refine hwf.withRows (by simp) fun other merged' hmerged' => ?_
    rw [List.getElem?_set] at hmerged'
    split at hmerged'
    · rename_i hother
      subst hother
      split at hmerged'
      · cases hmerged'
        exact ⟨⟨k, hindex⟩, hmeets⟩
      · cases hmerged'
    · exact ⟨hwf.slotted other merged' hmerged', hwf.met other merged' hmerged'⟩
  case h_2 hnone =>
    have hget : ∀ (k' : Bytes) index, (table.byKey.insert k table.rows.length)[k']? = some index →
        (k' = k ∧ index = table.rows.length) ∨ table.byKey[k']? = some index := by
      intro k' index hindex
      rw [OrdMap.getElem?_insert] at hindex
      split at hindex
      · rename_i hk
        cases hindex
        exact .inl ⟨hk.symm, rfl⟩
      · exact .inr hindex
    have hrows : ∀ (index : Nat) (merged' : MergedRow schema),
        (table.rows ++ [some merged])[index]? = some (some merged') →
        (index = table.rows.length ∧ merged' = merged) ∨
        table.rows[index]? = some (some merged') := by
      intro index merged' hmerged'
      rcases lt_trichotomy index table.rows.length with hlt | rfl | hgt
      · rw [List.getElem?_append_left hlt] at hmerged'
        exact .inr hmerged'
      · rw [List.getElem?_concat_length] at hmerged'
        cases hmerged'
        exact .inl ⟨rfl, rfl⟩
      · rw [List.getElem?_eq_none (by simp; omega)] at hmerged'
        cases hmerged'
    refine ⟨?_, ?_, ?_, hwf.ascending, ?_, hwf.timedLt, hwf.timed, hwf.apart⟩
    · intro k' index hindex
      rw [List.length_append, List.length_singleton]
      rcases hget k' index hindex with ⟨-, rfl⟩ | hindex
      · exact Nat.lt_succ_self _
      · exact (hwf.inRange k' index hindex).trans (Nat.lt_succ_self _)
    · intro k₁ k₂ index h₁ h₂
      rcases hget k₁ index h₁ with ⟨hk₁, hrows⟩ | h₁ <;>
        rcases hget k₂ index h₂ with ⟨hk₂, hrows'⟩ | h₂
      · rw [hk₁, hk₂]
      · exact absurd (hwf.inRange k₂ index h₂) (hrows ▸ Nat.lt_irrefl _)
      · exact absurd (hwf.inRange k₁ index h₁) (hrows' ▸ Nat.lt_irrefl _)
      · exact hwf.injective k₁ k₂ index h₁ h₂
    · intro index merged' hmerged'
      rcases hrows index merged' hmerged' with ⟨rfl, -⟩ | hslot
      · exact ⟨k, by rw [OrdMap.getElem?_insert, if_pos rfl]⟩
      · obtain ⟨k', hk'⟩ := hwf.slotted index merged' hslot
        refine ⟨k', ?_⟩
        rw [OrdMap.getElem?_insert, if_neg, hk']
        rintro rfl
        rw [hnone] at hk'
        cases hk'
    · intro index merged' hmerged'
      rcases hrows index merged' hmerged' with ⟨-, rfl⟩ | hslot
      · exact hmeets
      · exact hwf.met index merged' hslot

theorem held_put (hwf : table.WF sources) (k k' : Bytes) (merged : MergedRow schema) :
    (table.put k merged).held k' = if k' = k then some merged else table.held k' := by
  unfold Table.put
  split
  case h_1 index hindex =>
    have hrange := hwf.inRange k index hindex
    unfold held
    dsimp only
    split
    · rename_i hk
      rw [hk, hindex, Option.bind_some, List.getElem?_set_self hrange]
      rfl
    · rename_i hk
      refine Option.bind_congr fun other hother => ?_
      rw [List.getElem?_set_ne]
      rintro rfl
      exact hk (hwf.injective k' k index hother hindex)
  case h_2 hnone =>
    unfold held
    dsimp only
    rw [OrdMap.getElem?_insert]
    split
    · rename_i hk
      rw [if_pos hk.symm, Option.bind_some, List.getElem?_concat_length]
      rfl
    · rename_i hk
      rw [if_neg fun h => hk h.symm]
      refine Option.bind_congr fun other hother => ?_
      rw [List.getElem?_append_left (hwf.inRange k' other hother)]

section

variable (table)

@[simp] theorem columns_put (k : Bytes) (merged : MergedRow schema) :
    (table.put k merged).columns = table.columns := by
  unfold Table.put
  split <;> rfl

@[simp] theorem truncates_put (k : Bytes) (merged : MergedRow schema) :
    (table.put k merged).truncates = table.truncates := by
  unfold Table.put
  split <;> rfl

theorem bind_meet_of_met {slot : Option (MergedRow schema)}
    (hmet : ∀ merged ∈ slot, merged.met = table.truncates.length) : (slot.bind fun merged =>
        (merged.value sources).meet table.columns.layout (table.pending sources key merged))
      = slot.map (MergedRow.value sources) := by
  cases slot with
  | none => rfl
  | some merged =>
    rw [Option.bind_some, pending, hmet merged rfl, List.drop_length]
    rfl

end

section

variable (hwf : table.WF sources)
include hwf

theorem rowOf_put (k k' : Bytes)
    (hmet : merged.met = table.truncates.length) : (table.put k merged).rowOf sources key k'
      = if k' = k then some (merged.value sources) else table.rowOf sources key k' := by
  have hpending : ∀ other, (table.put k merged).pending sources key other
      = table.pending sources key other := fun other => by rw [pending, pending, truncates_put]
  simp only [rowOf, held_put hwf, columns_put, hpending]
  split
  · exact bind_meet_of_met table fun other hother => Option.mem_some_iff.mp hother ▸ hmet
  · rfl

/-! ## Deleting a row -/

theorem WF.erase (hindex : table.byKey[k]? = some index) :
    WF sources { table with byKey := table.byKey.erase k, rows := table.rows.set index none } := by
  have hget : ∀ (k' : Bytes) other, (table.byKey.erase k)[k']? = some other →
      k ≠ k' ∧ table.byKey[k']? = some other := by
    intro k' other hother
    rw [OrdMap.getElem?_erase] at hother
    split at hother
    · cases hother
    · rename_i hk
      exact ⟨hk, hother⟩
  have hrows : ∀ (other : Nat) (merged : MergedRow schema),
      (table.rows.set index none)[other]? = some (some merged) →
      index ≠ other ∧ table.rows[other]? = some (some merged) := by
    intro other merged hmerged
    by_cases hother : index = other
    · subst hother
      rw [List.getElem?_set_self (hwf.inRange k index hindex)] at hmerged
      cases hmerged
    · rw [List.getElem?_set_ne hother] at hmerged
      exact ⟨hother, hmerged⟩
  refine ⟨?_, ?_, ?_, hwf.ascending, ?_, hwf.timedLt, hwf.timed, hwf.apart⟩
  · intro k' other hother
    rw [List.length_set]
    exact hwf.inRange k' other (hget k' other hother).2
  · intro k₁ k₂ other h₁ h₂
    exact hwf.injective k₁ k₂ other (hget k₁ other h₁).2 (hget k₂ other h₂).2
  · intro other merged hmerged
    obtain ⟨hne, hslot⟩ := hrows other merged hmerged
    obtain ⟨k', hk'⟩ := hwf.slotted other merged hslot
    refine ⟨k', ?_⟩
    rw [OrdMap.getElem?_erase, if_neg, hk']
    rintro rfl
    exact hne (Option.some.inj (hindex.symm.trans hk'))
  · intro other merged hmerged
    exact hwf.met other merged (hrows other merged hmerged).2

theorem held_erase (hindex : table.byKey[k]? = some index) (k' : Bytes) :
    held { table with byKey := table.byKey.erase k, rows := table.rows.set index none } k'
      = if k' = k then none else table.held k' := by
  unfold held
  dsimp only
  rw [OrdMap.getElem?_erase]
  split
  · rename_i hk
    rw [if_pos hk.symm]
    rfl
  · rename_i hk
    rw [if_neg fun h => hk h.symm]
    refine Option.bind_congr fun other hother => ?_
    rw [List.getElem?_set_ne]
    rintro rfl
    exact hk (hwf.injective k k' index hindex hother)

theorem WF.modify
    (hf : ∀ merged : MergedRow schema, table.rows[index]? = some (some merged) →
      (f merged).met = merged.met ∧ table.TruncatedBy (f merged).seq) :
    WF sources { table with rows := table.rows.modify index (Option.map f) } := by
  refine hwf.withRows (by simp) fun other merged' hmerged' => ?_
  rw [List.getElem?_modify] at hmerged'
  obtain ⟨slot, hslot, hmodify⟩ := Option.map_eq_some_iff.mp hmerged'
  split at hmodify
  · rename_i hother
    subst hother
    obtain ⟨merged, rfl, rfl⟩ := Option.map_eq_some_iff.mp hmodify
    obtain ⟨hmet, hle⟩ := hf merged hslot
    exact ⟨hwf.slotted index merged hslot, hle.meets (hmet ▸ (hwf.met index merged hslot).1)⟩
  · cases hmodify
    exact ⟨hwf.slotted other merged' hslot, hwf.met other merged' hslot⟩

theorem held_modify
    (hindex : table.byKey[k]? = some index) (f : MergedRow schema → MergedRow schema) (k' : Bytes) :
    held { table with rows := table.rows.modify index (Option.map f) } k'
      = if k' = k then (table.held k).map f else table.held k' := by
  unfold held
  dsimp only
  split
  · rename_i hk
    rw [hk, hindex, Option.bind_some, Option.bind_some, List.getElem?_modify_eq]
    cases table.rows[index]? <;> rfl
  · rename_i hk
    refine Option.bind_congr fun other hother => ?_
    rw [List.getElem?_modify_ne]
    rintro rfl
    exact hk (hwf.injective k' k index hother hindex)

end

/-! ## Applying a change -/

end Table

def Change.keyed (sources : Sources D schema) (key : MergeKey) (change : Change)
    (unchanged : Option (schema.Column → Bool)) :
    Keyed.Change schema.Column (Value D) Bytes (KeyCells D key) where
  op := change.op
  seq := change.seq
  cells := sources.cell change.place
  kept column := unchanged.elim false fun unchanged => unchanged column
  names := sources.keyCells key change.place

variable {merged : MergedRow schema} {columns : Columns schema}

namespace Table

variable {table : Table schema} {k : Bytes} {index : Nat} {change : Change}

/-- What a change that is not a truncate leaves of its key's row. -/
def appliedTo (layout : Keyed.Layout schema.Column)
    (change : Keyed.Change schema.Column (Value D) Bytes (KeyCells D key))
    (row : Option (Keyed.Row schema.Column (Value D) Bytes)) :
    Option (Keyed.Row schema.Column (Value D) Bytes) × Applied :=
  if row.any fun row => row.behind change.seq then (row, .nothing)
  else if change.op = .delete then
    match layout.time with
    | none => (none, .removed)
    | some time => (row.map (Keyed.Row.mark layout time change false), .nothing)
  else (some (Keyed.Row.updated change row), .held)

theorem behind_eq (row : Keyed.Row schema.Column (Value D) Bytes) (seq : Bytes) :
    behind row.seq row.truncated seq = row.behind seq := by
  unfold behind Keyed.Row.behind
  rcases lt_trichotomy row.seq seq with hlt | heq | hgt
  · rw [compare_lt_iff_lt.mpr hlt]
    simp [hlt.not_gt, hlt.ne]
  · rw [compare_eq_iff_eq.mpr heq]
    simp [heq]
  · rw [compare_gt_iff_gt.mpr hgt]
    simp [hgt]

theorem value_updated (sources : Sources D schema) (change : Change)
    (unchanged : Option (schema.Column → Bool)) (current : Option (MergedRow schema)) (met : Nat) :
    MergedRow.value sources
        { seq := change.seq, cells := updated change.place unchanged current, marks := [], met,
          truncated := false }
      = Keyed.Row.updated (change.keyed sources key unchanged)
          (current.map (MergedRow.value sources)) := by
  refine Keyed.Row.ext ?_ rfl rfl
  funext column
  cases unchanged with
  | none => rfl
  | some unchanged =>
    have hcell : MergedRow.cell
        { seq := change.seq, cells := updated change.place (some unchanged) current, marks := [],
          met, truncated := false } column
        = if unchanged column then current.bind fun current => current.cell column
          else some change.place := rfl
    refine (congrArg (Option.bind · fun place => sources.cell place column) hcell).trans ?_
    by_cases hkept : unchanged column
    · rw [if_pos hkept]
      refine Eq.trans ?_ (if_pos hkept).symm
      cases current <;> rfl
    · rw [if_neg hkept]
      exact (if_neg hkept).symm

/-- The table `table'` is `table` with the row `row` of the key encoded `k`. -/
structure Rewrites (sources : Sources D schema) (key : MergeKey) (table : Table schema) (k : Bytes)
    (row : Option (Keyed.Row schema.Column (Value D) Bytes)) (table' : Table schema) : Prop where
  wf : table'.WF sources
  columns : table'.columns = table.columns
  truncates : table'.truncates = table.truncates
  rowOf : ∀ k', table'.rowOf sources key k' = if k' = k then row else table.rowOf sources key k'

theorem Rewrites.refl (hwf : table.WF sources)
    {row : Option (Keyed.Row schema.Column (Value D) Bytes)}
    (hrow : table.rowOf sources key k = row) : Rewrites sources key table k row table :=
  ⟨hwf, rfl, rfl, fun k' => by split <;> simp_all⟩

theorem Rewrites.put (hwf : table.WF sources) (k : Bytes)
    (hmet : merged.met = table.truncates.length) (hle : table.TruncatedBy merged.seq) :
    Rewrites sources key table k (some (merged.value sources)) (table.put k merged) where
  wf := hwf.put k (hle.meets hmet.le)
  columns := columns_put table k merged
  truncates := truncates_put table k merged
  rowOf k' := rowOf_put hwf k k' hmet

theorem Rewrites.modify (key : MergeKey) (hwf : table.WF sources)
    (hindex : table.byKey[k]? = some index)
    (hmet : ∀ merged ∈ table.held k, merged.met = table.truncates.length)
    (hf : ∀ merged, (f merged).met = merged.met ∧ table.TruncatedBy (f merged).seq) :
    Rewrites sources key table k ((table.held k).map fun merged => (f merged).value sources)
      { table with rows := table.rows.modify index (Option.map f) } where
  wf := hwf.modify fun merged _ => hf merged
  columns := rfl
  truncates := rfl
  rowOf k' := by
    rw [Table.rowOf, held_modify hwf hindex]
    split
    · refine (bind_meet_of_met table fun merged hmerged => ?_).trans (Option.map_map ..)
      obtain ⟨kept, hkept, rfl⟩ := Option.map_eq_some_iff.mp hmerged
      rw [(hf kept).1, hmet kept hkept]
    · rfl

theorem Rewrites.delete (key : MergeKey) (hwf : table.WF sources)
    (hmet : ∀ merged ∈ table.held k, merged.met = table.truncates.length)
    (hle : table.TruncatedBy change.seq)
    (unchanged : Option (schema.Column → Bool)) :
    let deleted := table.delete sources k table.byKey[k]? change
    Rewrites sources key table k
        (table.columns.time.bind fun time =>
          (table.rowOf sources key k).map (Keyed.Row.mark table.columns.layout time
            (change.keyed sources key unchanged) false)) deleted.1 ∧
      deleted.2 = if table.columns.time.isNone then .removed else .nothing := by
  have hrow : table.rowOf sources key k = (table.held k).map (MergedRow.value sources) :=
    bind_meet_of_met table hmet
  have hnone : table.byKey[k]? = none → table.rowOf sources key k = none := fun hindex => by
    rw [Table.rowOf, held, hindex]
    rfl
  unfold Table.delete
  cases htime : table.columns.time with
  | none =>
    cases hindex : table.byKey[k]? with
    | none => exact ⟨.refl hwf (hnone hindex), rfl⟩
    | some index =>
      refine ⟨⟨hwf.erase hindex, rfl, rfl, fun k' => ?_⟩, rfl⟩
      rw [Table.rowOf, held_erase hwf hindex]
      split <;> rfl
  | some time =>
    cases hindex : table.byKey[k]? with
    | none => exact ⟨.refl hwf (by rw [hnone hindex]; rfl), rfl⟩
    | some index =>
      let marked (kept : MergedRow schema) : MergedRow schema :=
        { kept.markedBy sources table.columns.seq time change.place change.place with
          seq := change.seq, truncated := false }
      have hmodify := Rewrites.modify key hwf hindex hmet (f := marked) fun kept =>
        ⟨kept.met_markedBy .., hle⟩
      have hmarked : ((table.held k).map fun kept => (marked kept).value sources)
          = (table.rowOf sources key k).map (Keyed.Row.mark table.columns.layout time
              (change.keyed sources key unchanged) false) := by
        rw [hrow, Option.map_map]
        refine Option.map_congr fun kept _ => Keyed.Row.ext ?_ rfl rfl
        funext column
        exact MergedRow.cells_markedBy sources kept table.columns.seq time _ _ column
      rw [hmarked] at hmodify
      exact ⟨hmodify, rfl⟩

/-- The table and what it says it applied are those of the key's row that took the change. -/
def Takes (sources : Sources D schema) (key : MergeKey) (table : Table schema) (k : Bytes)
    (change : Change) (unchanged : Option (schema.Column → Bool))
    (result : Table schema × Applied) : Prop :=
  let taken := appliedTo table.columns.layout (change.keyed sources key unchanged)
    (table.rowOf sources key k)
  Rewrites sources key table k taken.1 result.1 ∧ result.2 = taken.2

/-- Applies `change` to the row of its key, which met every truncate. -/
def applyMet (sources : Sources D schema) (table : Table schema) (k : Bytes) (change : Change)
    (unchanged : Option (schema.Column → Bool)) : Table schema × Applied :=
  if (table.held k).any fun current => behind current.seq current.truncated change.seq then
    (table, .nothing)
  else if change.op = .delete then table.delete sources k table.byKey[k]? change
  else
    (table.put k
      { seq := change.seq, cells := updated change.place unchanged (table.held k), marks := [],
        met := table.truncates.length, truncated := false }, .held)

theorem apply_eq (table : Table schema) (k : Bytes) (change : Change)
    (unchanged : Option (schema.Column → Bool)) : table.apply sources k change unchanged
      = (table.byKey[k]?.elim table (table.meet sources)).applyMet sources k change unchanged := by
  cases hindex : table.byKey[k]? with
  | none => simp only [apply, applyMet, held, hindex, Option.elim_none, Option.bind_none]
  | some index =>
    simp only [apply, applyMet, held, hindex, Option.elim_some, Option.bind_some, byKey_meet]

theorem rewrites_applyMet (key : MergeKey) (hwf : table.WF sources)
    (hmet : ∀ merged ∈ table.held k, merged.met = table.truncates.length)
    (hle : table.TruncatedBy change.seq)
    (unchanged : Option (schema.Column → Bool)) :
    Takes sources key table k change unchanged (table.applyMet sources k change unchanged) := by
  have hrow : table.rowOf sources key k = (table.held k).map (MergedRow.value sources) :=
    bind_meet_of_met table hmet
  have hbehind : ((table.rowOf sources key k).any fun row =>
        row.behind (change.keyed sources key unchanged).seq)
      = (table.held k).any fun current => behind current.seq current.truncated change.seq := by
    rw [hrow, Option.any_map]
    refine congrArg (fun p => Option.any p (table.held k)) (funext fun current => ?_)
    exact (behind_eq (current.value sources) change.seq).symm
  have hop : (change.keyed sources key unchanged).op = change.op := rfl
  rw [Takes, appliedTo, applyMet, hbehind, hop]
  split
  · exact ⟨.refl hwf rfl, rfl⟩
  · by_cases hdelete : change.op = .delete
    · have hdeleted := Rewrites.delete key hwf hmet hle unchanged
      have hlayout : table.columns.layout.time = table.columns.time := rfl
      rw [if_pos hdelete, if_pos hdelete, hlayout]
      cases htime : table.columns.time with
      | none => simpa [htime] using hdeleted
      | some time => simpa [htime] using hdeleted
    · rw [if_neg hdelete, if_neg hdelete, hrow,
        ← value_updated sources change unchanged _ table.truncates.length]
      exact ⟨.put hwf k rfl hle, rfl⟩

/-- Applies `change` to its key as its key's row takes it. -/
theorem rewrites_apply (key : MergeKey) (hwf : table.WF sources) (k : Bytes)
    (hle : table.TruncatedBy change.seq)
    (unchanged : Option (schema.Column → Bool)) :
    Takes sources key table k change unchanged (table.apply sources k change unchanged) := by
  rw [apply_eq]
  cases hindex : table.byKey[k]? with
  | none =>
    have hheld : table.held k = none := by
      rw [held, hindex]
      rfl
    exact rewrites_applyMet key hwf (by simp [hheld]) hle unchanged
  | some index =>
    have hmet : ∀ merged ∈ (table.meet sources index).held k,
        merged.met = (table.meet sources index).truncates.length := by
      intro merged hmerged
      obtain ⟨place, hplace, hslot⟩ := mem_rows_of_held hmerged
      rw [byKey_meet, hindex] at hplace
      cases hplace
      exact MetAt.meet hwf (.inl rfl) merged hslot
    have happlied := rewrites_applyMet key (hwf.meet index) hmet
      (by rwa [TruncatedBy, truncates_meet]) unchanged
    rw [Takes, columns_meet, rowOf_meet hwf] at happlied
    obtain ⟨⟨hwf', hcolumns, htruncates, hrows⟩, happlied⟩ := happlied
    rw [columns_meet] at hcolumns
    rw [truncates_meet] at htruncates
    refine ⟨⟨hwf', hcolumns, htruncates, fun k' => ?_⟩, happlied⟩
    rw [← rowOf_meet hwf index k']
    exact hrows k'

/-! ## Loading -/

/-- The row the table holds of a published row. -/
def loaded (seqs : At → Bytes) (place : At) : MergedRow schema :=
  { seq := seqs place, cells := .whole place, marks := [], met := 0, truncated := false }

/-- A loaded table holds of each key the last row published. -/
theorem load_spec (sources : Sources D schema) (published : List At) (keys seqs : At → Bytes)
    (hapart : ∀ time, columns.time = some time → time ≠ columns.seq) :
    (load published keys seqs columns).WF sources ∧
      (load published keys seqs columns).columns = columns ∧
      (load published keys seqs columns).truncates = [] ∧
      ∀ k, (load published keys seqs columns).held k
        = ((published.filter fun place => keys place == k).getLast?).map (loaded seqs) := by
  induction published using List.reverseRecOn with
  | nil =>
    refine ⟨⟨?_, ?_, ?_, List.Pairwise.nil, ?_, ?_, ?_, hapart⟩, rfl, rfl, by simp [load, held]⟩
    all_goals simp [load]
  | append_singleton published place ih =>
    obtain ⟨hwf, hcolumns, htruncates, hheld⟩ := ih
    rw [show load (published ++ [place]) keys seqs columns
      = (load published keys seqs columns).put (keys place) (loaded seqs place)
      from List.foldl_append]
    refine ⟨?_, (columns_put ..).trans hcolumns, (truncates_put ..).trans htruncates, fun k => ?_⟩
    · exact hwf.put _ ⟨Nat.zero_le _, by simp [loaded]⟩
    · rw [held_put hwf, hheld, List.filter_append]
      by_cases hk : k = keys place
      · subst hk
        simp
      · have hne : ¬ keys place = k := fun h => hk h.symm
        simp [hk, hne]

theorem rowOf_load (sources : Sources D schema) (key : MergeKey) (published : List At)
    (keys seqs : At → Bytes) (hapart : ∀ time, columns.time = some time → time ≠ columns.seq)
    (k : Bytes) :
    rowOf sources key (load published keys seqs columns) k
      = ((published.filter fun place => keys place == k).getLast?).map fun place =>
          { cells := sources.cell place, seq := seqs place, truncated := false } := by
  obtain ⟨hwf, -, htruncates, hheld⟩ := load_spec sources published keys seqs hapart
  have hmet : ∀ merged ∈ (load published keys seqs columns).held k,
      merged.met = (load published keys seqs columns).truncates.length := by
    intro merged hmerged
    rw [hheld, Option.mem_def, Option.map_eq_some_iff] at hmerged
    obtain ⟨place, -, rfl⟩ := hmerged
    rw [htruncates]
    rfl
  rw [rowOf, bind_meet_of_met _ hmet, hheld, Option.map_map]
  rfl

/-! ## Assembling -/

/-- Where only the slot at `index` holds one that `p` keeps, `p` keeps what that slot holds. -/
theorem filter_reduceOption_of_slot {p : α → Bool} {l : List (Option α)}
    (h : ∀ (other : Nat) (a : α), l[other]? = some (some a) → (p a ↔ other = index)) :
    l.reduceOption.filter p = (l[index]?).join.toList := by
  induction l generalizing index with
  | nil => rfl
  | cons slot l ih =>
    have hhead : ∀ a, slot = some a → (p a ↔ 0 = index) := fun a ha => h 0 a (by simp [ha])
    cases index with
    | zero =>
      have htail : l.reduceOption.filter p = [] := by
        refine List.filter_eq_nil_iff.mpr fun a ha hp => ?_
        obtain ⟨other, hother⟩ := List.mem_iff_getElem?.mp (List.reduceOption_mem_iff.mp ha)
        exact absurd ((h (other + 1) a (by simpa using hother)).mp hp) (Nat.succ_ne_zero _)
      cases slot with
      | none => simpa using htail
      | some a => simp [htail, (hhead a rfl).mpr rfl]
    | succ index =>
      have htail := ih fun other a hother => by
        simpa using h (other + 1) a (by simpa using hother)
      cases slot with
      | none => simpa using htail
      | some a =>
        have hnot : ¬ p a := fun hp => Nat.succ_ne_zero _ ((hhead a rfl).mp hp).symm
        simpa [hnot] using htail

/-- Of the rows in the slots, those of one key are the row the table holds of it. -/
theorem filter_rows (hwf : table.WF sources) {keyOf : MergedRow schema → Bytes}
    (hkeys : ∀ k merged, table.held k = some merged → keyOf merged = k) (k : Bytes) :
    table.rows.reduceOption.filter (fun merged => keyOf merged == k) = (table.held k).toList := by
  have hslot : ∀ (index : Nat) (merged : MergedRow schema),
      table.rows[index]? = some (some merged) → table.byKey[keyOf merged]? = some index := by
    intro index merged hmerged
    obtain ⟨k', hk'⟩ := hwf.slotted index merged hmerged
    rw [hkeys k' merged (by rw [held, hk', Option.bind_some, hmerged]; rfl), hk']
  cases hindex : table.byKey[k]? with
  | none =>
    rw [held, hindex]
    refine List.filter_eq_nil_iff.mpr fun merged hmerged hk => ?_
    obtain ⟨index, hslot'⟩ := List.mem_iff_getElem?.mp (List.reduceOption_mem_iff.mp hmerged)
    have hfound := hslot index merged hslot'
    rw [eq_of_beq hk, hindex] at hfound
    cases hfound
  | some index =>
    rw [held, hindex, Option.bind_some]
    refine filter_reduceOption_of_slot fun other merged hmerged => ?_
    have hfound := hslot other merged hmerged
    rw [beq_iff_eq]
    constructor
    · rintro rfl
      exact Option.some.inj (hfound.symm.trans hindex)
    · rintro rfl
      exact hwf.injective _ _ other hfound hindex

/-- Meeting the truncates at each of `indices` changes no key's row, and leaves the slots there
    with none to meet. -/
theorem foldl_meet (key : MergeKey) (indices : List Nat) (hwf : table.WF sources) :
    (indices.foldl (meet sources) table).WF sources ∧
      (indices.foldl (meet sources) table).rows.length = table.rows.length ∧
      (∀ k, (indices.foldl (meet sources) table).rowOf sources key k = table.rowOf sources key k) ∧
      ∀ index, index ∈ indices ∨ table.MetAt index →
        (indices.foldl (meet sources) table).MetAt index := by
  induction indices generalizing table with
  | nil => exact ⟨hwf, rfl, fun _ => rfl, fun index hmet => hmet.resolve_left (by simp)⟩
  | cons first indices ih =>
    obtain ⟨hwf', hlength, hrows, hmet⟩ := ih (hwf.meet first)
    rw [List.foldl_cons]
    refine ⟨hwf', hlength.trans ?_, fun k => (hrows k).trans (rowOf_meet hwf first k),
      fun index hindex => hmet index ?_⟩
    · unfold Table.meet
      split
      · rfl
      · exact List.length_modify ..
    · rcases hindex with hindex | hindex
      · rcases List.mem_cons.mp hindex with heq | hmem
        · exact .inr (MetAt.meet hwf (.inl heq))
        · exact .inl hmem
      · exact .inr (MetAt.meet hwf (.inr hindex))

theorem metAll_spec (key : MergeKey) (hwf : table.WF sources) : (table.metAll sources).WF sources ∧
      (∀ k, (table.metAll sources).rowOf sources key k = table.rowOf sources key k) ∧
      ∀ k, (table.metAll sources).rowOf sources key k
        = ((table.metAll sources).held k).map (MergedRow.value sources) := by
  obtain ⟨hwf', hlength, hrows, hmet⟩ := foldl_meet key (List.range table.rows.length) hwf
  refine ⟨hwf', hrows, fun k => bind_meet_of_met _ fun merged hmerged => ?_⟩
  obtain ⟨index, hindex, hslot⟩ := mem_rows_of_held hmerged
  refine hmet index (.inl ?_) merged hslot
  rw [List.mem_range, ← hlength]
  exact hwf'.inRange k index hindex

theorem filter_readBack_assemble (hschema : schema.Nodup)
    (hwf : table.WF sources) {keyOf : Row D schema → Bytes}
    (hkeys : ∀ k row, table.rowOf sources key k = some row → keyOf row.cells = k) (k : Bytes) :
    (readBack schema (table.assemble sources)).filter (fun row => keyOf row == k)
      = ((table.rowOf sources key k).map Keyed.Row.cells).toList := by
  obtain ⟨hwf', hrows, hheld⟩ := metAll_spec key hwf
  have hkeys' : ∀ k merged, (table.metAll sources).held k = some merged →
      keyOf (merged.value sources).cells = k := by
    intro k merged hmerged
    refine hkeys k (merged.value sources) ?_
    rw [← hrows, hheld, hmerged]
    rfl
  have hread : (readBack schema (table.assemble sources)).Perm
      ((table.metAll sources).rows.reduceOption.map fun merged =>
        (merged.value sources).cells) := by
    have hperm := readBack_assemble_perm hschema sources
      ((table.metAll sources).rows.reduceOption.map MergedRow.pick)
    rw [List.map_map] at hperm
    exact hperm.trans (.of_eq (List.map_congr_left fun merged _ => merged.value_pick sources))
  have hfilter := hread.filter fun row => keyOf row == k
  rw [List.filter_map] at hfilter
  have hone : ((table.metAll sources).rows.reduceOption.filter
      ((fun row => keyOf row == k) ∘ fun merged => (merged.value sources).cells))
        = ((table.metAll sources).held k).toList := filter_rows hwf' hkeys' k
  rw [hone] at hfilter
  rw [← hrows, hheld]
  cases hslot : (table.metAll sources).held k with
  | none =>
    rw [hslot] at hfilter
    exact hfilter.eq_nil
  | some merged =>
    rw [hslot] at hfilter
    exact List.perm_singleton.mp hfilter

end Table

end Rdlt.Merge
