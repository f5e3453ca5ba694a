/-
  Rdlt.Merge.Eager

  A merge applies a truncate to a row only when the row is next met: the table
  keeps the truncates it took and each row how many of them it met. What that
  saves must not show.
-/

import Rdlt.Merge.ChangeLaws

namespace Rdlt.Merge

/-! ## One key -/

namespace Keyed.State

variable {ι V σ P : Type} [DecidableEq ι] [LinearOrder σ]

/-- Applies a truncate to the key at once: a row sequenced before it is removed, or where deletes
    are soft marked deleted. -/
def truncateEager (layout : Layout ι) (state : State ι V σ P) (change : Change ι V σ P) :
    State ι V σ P where
  row := state.row.bind (Row.truncate layout change)
  guard := if layout.time.isNone then state.guard.raise change.seq else state.guard

/-- Applies a change of the key, or a truncate, at once. -/
def stepEager (layout : Layout ι) (state : State ι V σ P) (change : Change ι V σ P) :
    State ι V σ P :=
  if change.op = .truncate then state.truncateEager layout change else state.step layout change

/-- The key's row is not before the table's bound, which removed every row that was. -/
def Bounded (state : State ι V σ P) : Prop :=
  ∀ bound ∈ state.guard.bound, ∀ row ∈ state.row, bound ≤ row.seq

variable {layout : Layout ι} {state : State ι V σ P} {change : Change ι V σ P}

section

variable (hbounded : state.Bounded)
include hbounded

theorem truncateEager_eq : state.truncateEager layout change = state.truncate layout change := by
  unfold truncate
  by_cases hreached : state.guard.reached change.seq
  · rw [if_pos hreached]
    rfl
  · rw [if_neg hreached]
    obtain ⟨bound, hbound, hlt⟩ : ∃ bound ∈ state.guard.bound, change.seq < bound := by
      simpa [Guard.reached_iff] using hreached
    refine State.ext ?_ ?_
    · cases hrow : state.row with
      | none => simp [truncateEager, hrow]
      | some row =>
        have hle : change.seq ≤ row.seq := hlt.le.trans (hbounded bound hbound row hrow)
        simp [truncateEager, hrow, Row.truncate, not_lt.mpr hle]
    · have hraise : state.guard.raise change.seq = state.guard := by
        rw [Option.mem_def] at hbound
        rw [Guard.raise, hbound, Option.elim_some, max_eq_left hlt.le, ← hbound, Guard.of_self]
      simp only [truncateEager, hraise, ite_self]

theorem stepEager_eq : state.stepEager layout change = state.step layout change := by
  unfold stepEager
  split
  · rename_i hop
    rw [truncateEager_eq hbounded, step, if_pos hop]
  · rfl

theorem Bounded.truncate : (state.truncate layout change).Bounded := by
  unfold State.truncate
  split
  · rename_i hreached
    intro bound hbound row hrow
    obtain ⟨held, hheld, hkept⟩ := Option.bind_eq_some_iff.mp hrow
    unfold Row.truncate at hkept
    cases htime : layout.time with
    | none =>
      -- the bound is the truncate's own sequence now, and the row is not before it
      simp only [htime, Option.isNone_none, if_true, Guard.raise_bound hreached,
        Option.mem_some_iff] at hbound
      simp only [htime, Option.map_none] at hkept
      split at hkept
      · exact nomatch hkept
      · cases hkept
        exact hbound ▸ le_of_not_gt ‹_›
    | some time =>
      simp only [htime, Option.isNone_some, Bool.false_eq_true, if_false] at hbound
      have hle : bound ≤ held.seq := hbounded bound hbound held hheld
      simp only [htime, Option.map_some] at hkept
      split at hkept
      · cases hkept
        exact hle.trans (le_of_lt ‹_›)
      · cases hkept
        exact hle
  · exact hbounded

theorem Bounded.step : (state.step layout change).Bounded := by
  unfold State.step
  split
  · exact hbounded.truncate
  split
  · exact hbounded
  rename_i haccepts
  have hadmits : state.guard.admits change.seq := by
    have haccepts : state.accepts change.seq := by simpa using haccepts
    exact (Bool.and_eq_true_iff.mp haccepts).1
  have hle := (Guard.admits_iff.mp hadmits).1
  split
  · unfold delete
    split
    · exact fun _ _ row hrow => nomatch hrow
    · intro bound hbound row hrow
      obtain ⟨held, -, rfl⟩ := Option.map_eq_some_iff.mp hrow
      exact hle bound hbound
  · intro bound hbound row hrow
    cases hrow
    exact hle bound hbound

theorem Bounded.run (changes : List (Change ι V σ P)) : (state.run layout changes).Bounded :=
  List.foldlRecOn _ _ hbounded fun _ hbounded _ _ => hbounded.step

theorem Bounded.merge (changes : List (Change ι V σ P)) : (state.merge layout changes).Bounded := by
  intro bound hbound row hrow
  obtain ⟨held, hheld, rfl⟩ := Option.map_eq_some_iff.mp hrow
  exact hbounded.run _ bound hbound held hheld

end

end Keyed.State

/-! ## The table -/

variable {D : Type}

namespace ChangeTable

abbrev Keys (T : ChangeTable D) : Type := Bytes → T.KeyState

/-- Applies a change at once: a truncate to every row of the table, another to its key's. -/
def applyEager (T : ChangeTable D) (keys : T.Keys) (change : T.KeyedChange) : T.Keys :=
  fun k => if T.concerns k change then (keys k).stepEager T.layout change else keys k

/-- The reference: changes sorted by sequence, truncates first at an equal one, each applied at
    once. -/
def mergeEager (T : ChangeTable D) (keys : T.Keys) (changes : List T.KeyedChange) : T.Keys :=
  (changes.insertionSort Keyed.Change.before).foldl T.applyEager keys

/-- A published table: the sequences its rows and tombstones hold compare, and no row is before
    the bound, as the truncate that left it removed every row that was. -/
structure Published (T : ChangeTable D) (published buried : List (Batch D)) : Prop where
  rows : ∀ row ∈ readBack T.stored published, Compares (row T.seqColumn)
  stones : ∀ stone ∈ storedUnder T.key buried, Compares stone.seq
  bounded : ∀ row ∈ readBack T.stored published, ∀ bound ∈ storedBound (storedUnder T.key buried),
    bound ≤ comparedBytes (row T.seqColumn)

variable {T : ChangeTable D} {published buried incoming : List (Batch D)} {merged : Merged D}

theorem Published.bounded_view (h : T.Published published buried) (k : Bytes) :
    (T.view published buried k).Bounded := by
  intro bound hbound row hrow
  obtain ⟨cells, hcells, rfl⟩ := Option.map_eq_some_iff.mp hrow
  have hmem : cells ∈ readBack T.stored published :=
    List.mem_of_mem_filter (List.mem_of_getLast? hcells)
  exact h.bounded cells hmem bound hbound

/-- Over tables whose rows are not before the bound, the changes of the whole table applied at once
    do to each key what its own do. -/
theorem foldl_applyEager {keys : T.Keys} (hbounded : ∀ k, (keys k).Bounded)
    (changes : List T.KeyedChange) (k : Bytes) : changes.foldl T.applyEager keys k
      = (keys k).run T.layout (changes.filter (T.concerns k)) := by
  induction changes generalizing keys with
  | nil => rfl
  | cons change changes ih =>
    have happly : ∀ k, T.applyEager keys change k
        = if T.concerns k change then (keys k).step T.layout change else keys k := by
      intro k
      rw [applyEager, Keyed.State.stepEager_eq (hbounded k)]
    have hkept : ∀ k, (T.applyEager keys change k).Bounded := by
      intro k
      rw [happly]
      split
      · exact (hbounded k).step
      · exact hbounded k
    rw [List.foldl_cons, ih hkept, happly]
    by_cases hconcerns : T.concerns k change
    · rw [if_pos hconcerns, List.filter_cons_of_pos hconcerns]
      rfl
    · rw [if_neg hconcerns, List.filter_cons_of_neg hconcerns]

theorem mergeEager_eq {keys : T.Keys} (hbounded : ∀ k, (keys k).Bounded)
    (changes : List T.KeyedChange) (k : Bytes) : (T.mergeEager keys changes k).stored
      = (keys k).merge T.layout (changes.filter (T.concerns k)) := by
  rw [mergeEager, foldl_applyEager hbounded, Lib.filter_insertionSort]
  rfl

theorem published_merge (hpublished : T.Published published buried) (hnamed : T.Named incoming)
    (h : T.merge published buried incoming = .ok merged) :
    T.Published merged.rows merged.tombstones := by
  have hready : T.Ready merged.rows merged.tombstones [] :=
    ready_merge hnamed h (by simp [readBack])
  refine ⟨hready.rows, hready.stones, fun row hrow bound hbound => ?_⟩
  -- the row is the one of its key, and its key's table is bounded
  have hkey : row ∈ T.rowsOf merged.rows (T.rowKey row) :=
    List.mem_filter.mpr ⟨hrow, beq_self_eq_true _⟩
  have hbounded : (T.view merged.rows merged.tombstones (T.rowKey row)).Bounded := by
    rw [view_merge hnamed h]
    exact (hpublished.bounded_view _).merge _
  rw [rowsOf_merge hnamed h] at hkey
  obtain ⟨held, hheld, hcells⟩ := Option.map_eq_some_iff.mp (Option.mem_toList.mp hkey)
  obtain ⟨cells, -, rfl⟩ := Option.map_eq_some_iff.mp hheld
  obtain rfl : cells = row := hcells
  exact hbounded bound hbound _ hheld

/-- Changes merged into a published table leave the rows that applying each of them at once leaves,
    a truncate to every row, and what they leave is published. -/
theorem merge_eager (hpublished : T.Published published buried)
    (hadmitted : ∀ raw ∈ incoming, T.Admitted raw) (hnamed : T.Named incoming)
    (hcompares : ∀ change ∈ T.changesOf incoming, Compares (change.cells T.seqColumn)) :
    ∃ merged, T.merge published buried incoming = .ok merged ∧
      T.Published merged.rows merged.tombstones ∧ ∀ k, T.rowsOf merged.rows k
        = ((T.mergeEager (T.view published buried) (T.changesOf incoming) k).row.map
            Keyed.Row.cells).toList := by
  obtain ⟨merged, h⟩ := (exists_merge_iff hnamed).mpr
    ⟨hadmitted, hpublished.rows, compares_iff.mpr hcompares, hpublished.stones⟩
  refine ⟨merged, h, published_merge hpublished hnamed h, fun k => ?_⟩
  have hview := mergeEager_eq hpublished.bounded_view (T.changesOf incoming) k
  rw [← changesFor, ← view_merge hnamed h] at hview
  rw [rowsOf_merge hnamed h, ← hview, Keyed.State.stored, Option.map_map]
  rfl

/-- Accounts truncated twice where deletes are soft, and one changed at a truncate's sequence. -/
theorem merge_eager_accounts : ∃ merged : Merged Unit,
    (Accounts.table true).merge Accounts.two [] Accounts.cut = .ok merged ∧
      ∀ k, (Accounts.table true).rowsOf merged.rows k
        = (((Accounts.table true).mergeEager ((Accounts.table true).view Accounts.two [])
            ((Accounts.table true).changesOf Accounts.cut) k).row.map Keyed.Row.cells).toList := by
  obtain ⟨merged, h, -, hrows⟩ := @merge_eager Unit (Accounts.table true) Accounts.two []
    Accounts.cut ⟨by decide +kernel, by decide +kernel, by decide +kernel⟩ (by decide +kernel)
    (by decide +kernel) (by decide +kernel)
  exact ⟨merged, h, hrows⟩

end ChangeTable

end Rdlt.Merge
