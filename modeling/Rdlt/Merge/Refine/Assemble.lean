/-
  Rdlt.Merge.Refine.Assemble

  The versions a merge of history leaves, as the batches they are given back in:
  read back, they are the rows of the versions.
-/

import Rdlt.Merge.Refine.HistoryRun

namespace Rdlt.Merge

open Lib

open History (Version)

namespace HistoryTable

variable {D : Type} {H : HistoryTable D} {sources : Sources D H.stored}

/-- Where the table records a version's life, and what its opening row gives. -/
def columns (H : HistoryTable D) : LifeColumns H.stored where
  validFrom := H.fromColumn
  validTo := H.toColumn
  isCurrent := H.flagColumn
  opened := H.seqColumn :: H.time.toList

theorem lifeColumns_eq_ok (H : HistoryTable D) :
    lifeColumns H.stored H.key H.history = .ok H.columns := by
  have hcolumn : ∀ {name : String} (h : name ∈ H.stored),
      indexOf H.stored name = .ok (Schema.column H.stored name h) := by
    intro name h
    rw [indexOf, Schema.indexOf?_column h]
  unfold lifeColumns
  refine bind_eq_ok.mpr ⟨_, hcolumn (H.named _ (by simp)), ?_⟩
  refine bind_eq_ok.mpr ⟨_, hcolumn (H.named _ (by simp)), ?_⟩
  refine bind_eq_ok.mpr ⟨_, hcolumn (H.named _ (by simp)), ?_⟩
  refine bind_eq_ok.mpr ⟨_, hcolumn (H.named _ (by simp)), ?_⟩
  unfold columns time
  cases htime : deletedAt H.key with
  | none => rfl
  | some name =>
    have hmem := (H.timed name htime).1
    simp only [hcolumn hmem, Schema.indexOf?_column hmem, Option.bind_some]
    rfl

/-! ## The sources versions are given back from -/

/-- The sources with what the merge decided of the versions it touched, and both flags. -/
def given (sources : Sources D H.stored) (versions : List Version) : Sources D H.stored where
  list := sources.list ++ [decided versions H.history, flagBatch H.history]

theorem cell_given {place : At} (h : Placed sources place) (versions : List Version) :
    (given sources versions).cell place = sources.cell place := by
  funext column
  simp only [Sources.cell, given]
  rw [List.getElem?_append_left h]

theorem validTo_ne_validFrom (H : HistoryTable D) : H.history.validFrom ≠ H.history.validTo := by
  have h := H.names_nodup
  simp only [List.nodup_cons, List.mem_cons, not_or] at h
  exact h.2.1.1

theorem cell_decided (sources : Sources D H.stored) (before rest : List Version)
    {version : Version} (htouched : version.touched) :
    let place : At := ⟨sources.list.length, (before.filter Version.touched).length⟩
    (given sources (before ++ version :: rest)).cell place H.fromColumn
        = some (.int version.began) ∧
      (given sources (before ++ version :: rest)).cell place H.toColumn
        = version.ended.map .int := by
  have hrow : (decided (D := D) (before ++ version :: rest) H.history).rows[(before.filter
      Version.touched).length]? = some [some (.int version.began), version.ended.map .int] := by
    simp [decided, htouched]
  have hne := H.validTo_ne_validFrom
  refine ⟨?_, ?_⟩
  · simp only [Sources.cell, given]
    rw [List.getElem?_append_right le_rfl]
    simp only [Nat.sub_self, List.getElem?_cons_zero, Option.bind_some, fromColumn,
      Schema.get_column]
    simp only [Batch.cell, hrow]
    simp [decided, List.idxOf?, List.findIdx?_cons]
  · simp only [Sources.cell, given]
    rw [List.getElem?_append_right le_rfl]
    simp only [Nat.sub_self, List.getElem?_cons_zero, Option.bind_some, toColumn, Schema.get_column]
    simp only [Batch.cell, hrow]
    simp [decided, List.idxOf?, List.findIdx?_cons, hne]

theorem cell_flag (versions : List Version) (current : Bool) :
    (given sources versions).cell ⟨sources.list.length + 1, if current then 1 else 0⟩ H.flagColumn
      = some (.bool current) := by
  simp only [Sources.cell, given]
  rw [List.getElem?_append_right (Nat.le_succ _)]
  simp only [flagColumn, Schema.get_column]
  cases current <;> simp [Batch.cell, flagBatch, List.idxOf?, List.findIdx?_cons]

/-! ## The cells of a version -/

/-- The columns of a touched version set apart from its data's, in the order the table names
    them. -/
def entries (H : HistoryTable D) (validity flag placed : Nat) (version : Version) :
    List (H.stored.Column × Option At) :=
  H.columns.opened.map (fun column => (column, some version.opened)) ++
    [(H.fromColumn, some ⟨validity, placed⟩),
      (H.toColumn, version.ended.map fun _ => ⟨validity, placed⟩),
      (H.flagColumn, some ⟨flag, if version.current then 1 else 0⟩)]

variable {column : H.stored.Column}

theorem mem_opened : column ∈ H.columns.opened ↔ H.OpenedColumn column := by
  simp [columns, OpenedColumn, eq_comm]

theorem not_life_of_opened (h : H.OpenedColumn column) : ¬ H.LifeColumn column := by
  rcases h with rfl | htime
  · exact H.not_lifeColumn_seq
  · exact H.not_lifeColumn_time htime.symm

theorem entries_nodup (validity flag placed : Nat) (version : Version) :
    ((H.entries validity flag placed version).map Prod.fst).Nodup := by
  have hfst : (H.entries validity flag placed version).map Prod.fst
      = H.columns.opened ++ [H.fromColumn, H.toColumn, H.flagColumn] := by
    simp [entries, List.map_map, Function.comp_def]
  rw [hfst, List.nodup_append]
  refine ⟨?_, ?_, ?_⟩
  · cases htime : H.time with
    | none => simp [columns, htime]
    | some time =>
      have hne : H.seqColumn ≠ time := by
        rintro rfl
        exact H.time_ne htime (by simp) (Schema.get_column _)
      simp [columns, htime, hne]
  · simp [H.to_ne_from.symm, H.flag_ne_from.symm, H.flag_ne_to.symm]
  · rintro column hcolumn other hother rfl
    refine not_life_of_opened (mem_opened.mp hcolumn) ?_
    simpa [LifeColumn] using hother

section

variable {validity flag placed : Nat} {version : Version}

theorem versionOver_perm (htouched : version.touched) :
    (versionOver H.columns validity flag placed version).Perm
      (H.entries validity flag placed version) := by
  rw [versionOver, if_neg (by simp [htouched])]
  exact List.perm_insertionSort _ _

theorem cell_pick_of_mem (htouched : version.touched) {source : Option At}
    (h : (column, source) ∈ H.entries validity flag placed version) :
    Pick.cell { base := .row version.data
                overlay := versionOver H.columns validity flag placed version } column
                  = source := by
  have hperm : (versionOver H.columns validity flag placed version).Perm
      (H.entries validity flag placed version) := versionOver_perm htouched
  have hnodup := (hperm.map Prod.fst).nodup_iff.mpr (H.entries_nodup validity flag placed version)
  have hfind := find?_key hnodup (hperm.mem_iff.mpr h)
  simp only [Pick.cell, hfind]

/-- Any other cell of a version is its data's. -/
theorem cell_pick_of_not_mem (hlife : version.touched → ¬ H.LifeColumn column)
    (hopened : version.touched → ¬ H.OpenedColumn column) :
    Pick.cell { base := .row version.data
                overlay := versionOver H.columns validity flag placed version } column
      = some version.data := by
  have hfind : (versionOver H.columns validity flag placed version).find?
      (fun entry => entry.1 == column) = none := by
    rw [List.find?_eq_none]
    intro entry hentry heq
    obtain rfl : entry.1 = column := eq_of_beq heq
    cases htouched : version.touched with
    | false => simp [versionOver, htouched] at hentry
    | true =>
      have hmem := (versionOver_perm htouched).mem_iff.mp hentry
      rcases List.mem_append.mp hmem with hmem | hmem
      · obtain ⟨other, hother, rfl⟩ := List.mem_map.mp hmem
        exact hopened htouched (mem_opened.mp hother)
      · refine hlife htouched ?_
        simp only [List.mem_cons, List.not_mem_nil, or_false] at hmem
        rcases hmem with rfl | rfl | rfl
        · exact .inl rfl
        · exact .inr (.inl rfl)
        · exact .inr (.inr rfl)
  simp only [Pick.cell, hfind]

end

theorem value_pick (before rest : List Version) {version : Version}
    (hsound : H.Sound sources version) :
    Pick.value (given sources (before ++ version :: rest))
        { base := .row version.data
          overlay := versionOver H.columns sources.list.length (sources.list.length + 1)
            (before.filter Version.touched).length version }
      = H.cellsOf sources version := by
  funext column
  unfold Pick.value cellsOf
  cases htouched : version.touched with
  | false =>
    rw [cell_pick_of_not_mem (by simp [htouched]) (by simp [htouched]), Option.bind_some,
      cell_given hsound.data]
    rfl
  | true =>
    obtain ⟨hfrom, hto⟩ := cell_decided sources before rest htouched
    rw [if_pos rfl]
    by_cases hopened : H.OpenedColumn column
    · rw [cell_pick_of_mem htouched (List.mem_append_left _
        (List.mem_map.mpr ⟨column, mem_opened.mpr hopened, rfl⟩)), Option.bind_some,
        cell_given hsound.opened, H.dated_of_not_life _ _ _ _ (not_life_of_opened hopened),
        published, if_pos hopened]
    by_cases hlife : H.LifeColumn column
    · rcases hlife with rfl | rfl | rfl
      · rw [cell_pick_of_mem htouched (List.mem_append_right _ List.mem_cons_self),
          Option.bind_some, hfrom, dated_from]
      · rw [cell_pick_of_mem htouched (List.mem_append_right _
          (List.mem_cons_of_mem _ List.mem_cons_self)), dated_to]
        cases hended : version.ended with
        | none => rfl
        | some ended => simpa [hended] using hto
      · rw [cell_pick_of_mem htouched (List.mem_append_right _
          (List.mem_cons_of_mem _ (List.mem_cons_of_mem _ List.mem_cons_self))),
          Option.bind_some, cell_flag, dated_flag]
    · rw [cell_pick_of_not_mem (fun _ => hlife) (fun _ => hopened), Option.bind_some,
        cell_given hsound.data, H.dated_of_not_life _ _ _ _ hlife, published, if_neg hopened]

theorem map_value_picks (before versions : List Version)
    (hsound : ∀ version ∈ versions, H.Sound sources version) :
    (versionPicks H.columns sources.list.length (sources.list.length + 1)
        (before.filter Version.touched).length versions).map
        (Pick.value (given sources (before ++ versions)))
      = versions.map (H.cellsOf sources) := by
  induction versions generalizing before with
  | nil => rfl
  | cons version versions ih =>
    have hnext : (if version.touched then (before.filter Version.touched).length + 1
        else (before.filter Version.touched).length)
          = ((before ++ [version]).filter Version.touched).length := by
      cases htouched : version.touched <;> simp [htouched]
    have hrest := ih (before ++ [version]) fun other hother =>
      hsound other (List.mem_cons_of_mem _ hother)
    rw [List.append_assoc, List.singleton_append] at hrest
    rw [versionPicks, hnext, List.map_cons, List.map_cons, hrest,
      value_pick before versions (hsound version List.mem_cons_self)]

end HistoryTable

end Rdlt.Merge
