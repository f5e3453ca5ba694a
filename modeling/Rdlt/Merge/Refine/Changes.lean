/-
  Rdlt.Merge.Refine.Changes

  Merging a change stream's rows, key by key: the table and the tombstones a
  merge leaves are, of each key, what the key's own table is once the key's
  changes apply to it.
-/

import Rdlt.Merge.Refine.Written
import Rdlt.Merge.Laws

namespace Rdlt.Merge

namespace ChangeTable

variable {D : Type} {T : ChangeTable D}

/-! ## Rows that are stored as they are -/

/-- A row of the key encoded `k` whose sequence is the one it stores, which compares. -/
structure Sound (T : ChangeTable D) (k : Bytes)
    (row : Keyed.Row T.stored.Column (Value D) Bytes) : Prop where
  key : T.rowKey row.cells = k
  seq : row.seq = comparedBytes (row.cells T.seqColumn)
  compares : Compares (row.cells T.seqColumn)

/-- A change that says its own sequence and key, and keeps neither of its key's row. -/
structure Proper (T : ChangeTable D) (change : T.KeyedChange) : Prop where
  seq : change.seq = comparedBytes (change.cells T.seqColumn)
  compares : Compares (change.cells T.seqColumn)
  names : change.names = T.keyCells change.cells
  seqSet : change.kept T.seqColumn = false
  keySet : ∀ column, T.KeyColumn column → change.kept column = false

theorem Admitted.proper {raw : Batch D} (h : T.Admitted raw) {row : Nat}
    (hcompares : Compares (T.rowAt raw row T.seqColumn)) : T.Proper (T.changeAt raw row) where
  seq := rfl
  compares := hcompares
  names := rfl
  seqSet := h.not_keptAt row (by
    rw [T.get_seqColumn]
    simp [MergeKey.setAlways])
  keySet column hcolumn := h.not_keptAt row (by
    have hmem : T.stored.get column ∈ T.key.columns := hcolumn
    simp only [MergeKey.setAlways, Bool.or_eq_true, List.contains_iff_mem]
    exact .inr hmem)

theorem proper_of_mem {incoming : List (Batch D)} (hadmitted : ∀ raw ∈ incoming, T.Admitted raw)
    (hcompares : ∀ row ∈ readBack T.stored incoming, Compares (row T.seqColumn))
    {change : T.KeyedChange} (h : change ∈ T.changesOf incoming) : T.Proper change := by
  obtain ⟨raw, hraw, hchange⟩ := List.mem_flatMap.mp h
  obtain ⟨row, hrow, rfl⟩ := List.mem_map.mp hchange
  refine (hadmitted raw hraw).proper (hcompares _ (List.mem_flatMap.mpr ⟨raw, hraw, ?_⟩))
  exact List.mem_map.mpr ⟨row, hrow, rfl⟩

theorem Sound.mark {k : Bytes} {row : Keyed.Row T.stored.Column (Value D) Bytes}
    (h : T.Sound k row) {time : T.stored.Column} (htime : T.time = some time)
    {change : T.KeyedChange} (hchange : T.Proper change) (truncated : Bool) :
    T.Sound k (row.mark T.layout time change truncated) where
  key := by
    rw [← h.key, rowKey, rowKey]
    refine congrArg T.encode (T.keyCells_congr fun column hcolumn => ?_)
    have hne : column ≠ time := fun h => T.not_keyColumn_time htime (h ▸ hcolumn)
    have hne' : column ≠ T.seqColumn := fun h => T.not_keyColumn_seqColumn (h ▸ hcolumn)
    simp [Keyed.Row.mark, layout, hne, hne']
  seq := by
    have hne : T.seqColumn ≠ time := fun h => T.time_ne_seq htime h.symm
    simp [Keyed.Row.mark, hne, layout, hchange.seq]
  compares := by
    have hne : T.seqColumn ≠ time := fun h => T.time_ne_seq htime h.symm
    simpa [Keyed.Row.mark, hne, layout] using hchange.compares

theorem Proper.sound_updated {change : T.KeyedChange} (h : T.Proper change)
    (current : Option (Keyed.Row T.stored.Column (Value D) Bytes)) :
    T.Sound (T.encode change.names) (Keyed.Row.updated change current) where
  key := by
    rw [h.names, rowKey]
    refine congrArg T.encode (T.keyCells_congr fun column hcolumn => ?_)
    simp [Keyed.Row.updated, h.keySet column hcolumn]
  seq := by
    simp [Keyed.Row.updated, h.seqSet, h.seq]
  compares := by
    simpa [Keyed.Row.updated, h.seqSet] using h.compares

theorem Sound.step {k : Bytes} {state : T.KeyState} (h : ∀ row ∈ state.row, T.Sound k row)
    {change : T.KeyedChange} (hchange : T.Proper change) (hconcerns : T.concerns k change) :
    ∀ row ∈ (state.step T.layout change).row, T.Sound k row := by
  unfold Keyed.State.step
  split
  · unfold Keyed.State.truncate
    split
    · intro row hrow
      obtain ⟨kept, hkept, hrow⟩ := Option.bind_eq_some_iff.mp hrow
      unfold Keyed.Row.truncate at hrow
      split at hrow
      · obtain ⟨time, htime, rfl⟩ := Option.map_eq_some_iff.mp hrow
        exact (h kept hkept).mark htime hchange true
      · cases hrow
        exact h row hkept
    · exact h
  · rename_i hop
    have hk : T.encode change.names = k := by
      simpa [concerns, hop] using hconcerns
    split
    · exact h
    · split
      · unfold Keyed.State.delete
        split
        · simp
        · rename_i time htime
          intro row hrow
          obtain ⟨kept, hkept, rfl⟩ := Option.map_eq_some_iff.mp hrow
          exact (h kept hkept).mark htime hchange false
      · intro row hrow
        cases hrow
        exact hk ▸ hchange.sound_updated state.row

/-! ## One change -/

/-- A change of a key that its guard admits, as what it does to the key's row says. -/
theorem step_eq_appliedTo {state : T.KeyState} {change : T.KeyedChange}
    (hop : change.op ≠ .truncate)
    (hadmits : state.guard.admits change.seq) : state.step T.layout change
      = { row := (Table.appliedTo T.layout change state.row).1
          guard :=
            match (Table.appliedTo T.layout change state.row).2 with
            | .removed => state.guard.bury change.seq change.names
            | .held => state.guard.lift
            | .nothing => state.guard } := by
  have haccepts : state.accepts change.seq = !state.row.any fun row => row.behind change.seq := by
    rw [Keyed.State.accepts, hadmits, Bool.true_and]
    cases state.row <;> rfl
  rw [Keyed.State.step, if_neg hop, haccepts, Bool.not_not, Table.appliedTo]
  split
  · rfl
  · split
    · rw [Keyed.State.delete]
      cases T.layout.time <;> rfl
    · rfl

/-- The table and tombstones of a merge hold of each key what `keys` says. -/
structure Simulates (T : ChangeTable D) (sources : Sources D T.stored)
    (state : Table T.stored × Tombstones D T.key) (keys : Bytes → T.KeyState) : Prop where
  wf : state.1.WF sources
  columns : state.1.columns = T.columns
  stones : state.2.WF (sources.keyCells T.key) T.encode
  row : ∀ k, state.1.rowOf sources T.key k = (keys k).row
  guard : ∀ k, state.2.guard (sources.keyCells T.key) k = (keys k).guard
  sound : ∀ k, ∀ row ∈ (keys k).row, T.Sound k row
  kept : ∀ stone ∈ state.2.stored, Compares stone.seq

/-- What each key is once `change` applies, to the keys it concerns. -/
def stepKeys (T : ChangeTable D) (keys : Bytes → T.KeyState) (change : T.KeyedChange) (k : Bytes) :
    T.KeyState :=
  if T.concerns k change then (keys k).step T.layout change else keys k

variable {keys : Bytes → T.KeyState}

theorem sound_stepKeys (h : ∀ k, ∀ row ∈ (keys k).row, T.Sound k row) {change : T.KeyedChange}
    (hchange : T.Proper change) : ∀ k, ∀ row ∈ (T.stepKeys keys change k).row, T.Sound k row := by
  intro k
  unfold stepKeys
  split
  · rename_i hconcerns
    exact Sound.step (h k) hchange hconcerns
  · exact h k

section

variable {sources : Sources D T.stored} {state : Table T.stored × Tombstones D T.key}
  {mask : At → Except MergeError (Option (T.stored.Column → Bool))} {change : Change}
  {unchanged : Option (T.stored.Column → Bool)}

def keyAt (T : ChangeTable D) (sources : Sources D T.stored) (place : At) : Bytes :=
  T.encode (sources.keyCells T.key place)

def buriedBy (tombstones : Tombstones D T.key) (rowKey : Bytes) (change : Change)
    (applied : Applied) : Tombstones D T.key :=
  match applied with
  | .removed => tombstones.bury rowKey change.seq change.place
  | .held => tombstones.lift rowKey
  | .nothing => tombstones

@[simp] theorem stored_buriedBy (tombstones : Tombstones D T.key) (rowKey : Bytes)
    (applied : Applied) :
    (buriedBy tombstones rowKey change applied).stored = tombstones.stored := by
  cases applied <;> rfl

theorem guard_buriedBy (tombstones : Tombstones D T.key) (rowKey : Bytes) (applied : Applied)
    (k : Bytes) : (buriedBy tombstones rowKey change applied).guard (sources.keyCells T.key) k
      = if k = rowKey then match applied with
          | .removed => (tombstones.guard (sources.keyCells T.key) k).bury change.seq
              (sources.keyCells T.key change.place)
          | .held => (tombstones.guard (sources.keyCells T.key) k).lift
          | .nothing => tombstones.guard (sources.keyCells T.key) k
        else tombstones.guard (sources.keyCells T.key) k := by
  cases applied with
  | removed => exact Tombstones.guard_bury ..
  | held => exact Tombstones.guard_lift ..
  | nothing => exact (ite_self _).symm

/-- The change applies, and does to the table and its tombstones what it does to each key. -/
def Advances (T : ChangeTable D) (sources : Sources D T.stored)
    (mask : At → Except MergeError (Option (T.stored.Column → Bool)))
    (state : Table T.stored × Tombstones D T.key) (keys : Bytes → T.KeyState) (change : Change)
    (unchanged : Option (T.stored.Column → Bool)) : Prop :=
    ∃ state', applyChange sources (T.keyAt sources) mask state change = .ok state' ∧
      T.Simulates sources state' (T.stepKeys keys (change.keyed sources T.key unchanged)) ∧
      state'.1.TruncatedBy change.seq

section

variable (h : T.Simulates sources state keys)
  (hproper : T.Proper (change.keyed sources T.key unchanged))
  (hle : state.1.TruncatedBy change.seq)
include h hproper hle

/-- A truncate does to the table and its tombstones what it does to every key. -/
theorem Simulates.truncate (hop : change.op = .truncate) :
    T.Advances sources mask state keys change unchanged := by
  obtain ⟨table, tombstones⟩ := state
  set keyed := change.keyed sources T.key unchanged
  have hwf : table.WF sources := h.wf
  have hcolumns : table.columns = T.columns := h.columns
  have hreached : ∀ k, (keys k).guard.reached keyed.seq = tombstones.admits none change.seq := by
    intro k
    rw [← h.guard k]
    exact (Tombstones.admits_none (sources.keyCells T.key) tombstones k change.seq).symm
  have hstep : ∀ k, T.stepKeys keys keyed k = (keys k).truncate T.layout keyed := by
    intro k
    have hop' : keyed.op = .truncate := hop
    rw [stepKeys, if_pos (by simp [concerns, hop']), Keyed.State.step, if_pos hop']
  have hsound := sound_stepKeys h.sound hproper
  by_cases hadmits : tombstones.admits none change.seq
  · have hpast : ∀ k, T.stepKeys keys keyed k
        = { row := (keys k).row.bind (Keyed.Row.truncate T.layout keyed)
            guard :=
              if T.layout.time.isNone then (keys k).guard.raise keyed.seq
              else (keys k).guard } := by
      intro k
      rw [hstep, Keyed.State.truncate, if_pos ((hreached k).trans hadmits)]
    refine ⟨_, by rw [applyChange, if_pos hop, if_pos hadmits]; rfl,
      ⟨hwf.truncate hle, (Table.columns_truncate ..).trans hcolumns, ?_, fun k => ?_, fun k => ?_,
        hsound, ?_⟩, hle.truncate⟩
    · dsimp only
      split
      · exact h.stones.raise change.seq
      · exact h.stones
    · rw [hpast, ← h.row k]
      refine (Table.rowOf_truncate hwf k).trans ?_
      rw [hcolumns]
      rfl
    · rw [hpast, ← h.guard k]
      dsimp only
      rw [hcolumns, show T.layout.time = T.columns.time from rfl]
      split
      · exact Tombstones.guard_raise _ tombstones change.seq k
      · rfl
    · dsimp only
      split
      · rw [Tombstones.stored_raise]
        exact h.kept
      · exact h.kept
  · have hsame : ∀ k, T.stepKeys keys keyed k = keys k := by
      intro k
      rw [hstep, Keyed.State.truncate, if_neg (by rwa [hreached])]
    refine ⟨(table, tombstones), by rw [applyChange, if_pos hop, if_neg hadmits]; rfl,
      ⟨hwf, hcolumns, h.stones, fun k => ?_, fun k => ?_, hsound, h.kept⟩, hle⟩
    · rw [hsame]
      exact h.row k
    · rw [hsame]
      exact h.guard k

/-- A change of a key does to the table and its tombstones what it does to the key. -/
theorem Simulates.keyed (hop : change.op ≠ .truncate) (hmask : mask change.place = .ok unchanged)
    (hnamed : (sources.keyCells T.key change.place).allNull = false) :
    T.Advances sources mask state keys change unchanged := by
  obtain ⟨table, tombstones⟩ := state
  set keyed := change.keyed sources T.key unchanged
  set k₀ := T.keyAt sources change.place
  have hwf : table.WF sources := h.wf
  have hcolumns : table.columns = T.columns := h.columns
  have hop' : keyed.op ≠ .truncate := hop
  have hconcerns : ∀ k, T.concerns k keyed = true ↔ k = k₀ := by
    intro k
    rw [concerns, beq_eq_false_iff_ne.mpr hop', Bool.false_or, beq_iff_eq]
    exact eq_comm
  have hadmits : tombstones.admits (some k₀) change.seq = (keys k₀).guard.admits keyed.seq := by
    rw [← h.guard]
    exact Tombstones.admits_some (sources.keyCells T.key) tombstones _ change.seq
  have hsound := sound_stepKeys h.sound hproper
  by_cases hadmitted : tombstones.admits (some k₀) change.seq
  · obtain ⟨hrewrites, happlied⟩ := Table.rewrites_apply T.key hwf k₀ hle unchanged
    rw [hcolumns, show table.rowOf sources T.key k₀
      = (keys k₀).row from h.row _] at hrewrites happlied
    have hself := step_eq_appliedTo hop' (hadmits.symm.trans hadmitted)
    have hstep : ∀ k, T.stepKeys keys keyed k
        = if k = k₀ then (keys k₀).step T.layout keyed else keys k := by
      intro k
      by_cases hk : k = k₀
      · rw [stepKeys, if_pos ((hconcerns k).mpr hk), if_pos hk, hk]
      · rw [stepKeys, if_neg (mt (hconcerns k).mp hk), if_neg hk]
    refine ⟨((table.apply sources k₀ change unchanged).1,
      buriedBy tombstones k₀ change (table.apply sources k₀ change unchanged).2), ?_,
      ⟨hrewrites.wf, hrewrites.columns.trans hcolumns, ?_, fun k => ?_, fun k =>
        ?_, hsound, ?_⟩, ?_⟩
    · rw [applyChange, if_neg hop]
      dsimp only
      rw [hadmitted, hmask]
      rfl
    · cases (table.apply sources k₀ change unchanged).2 with
      | removed => exact h.stones.bury change.seq rfl hnamed
      | held => exact h.stones.lift _
      | nothing => exact h.stones
    · dsimp only
      rw [hrewrites.rowOf, hstep, hself]
      split
      · rfl
      · exact h.row k
    · dsimp only
      rw [guard_buriedBy, hstep, hself, happlied]
      split
      · rename_i hk
        rw [hk, show tombstones.guard (sources.keyCells T.key) k₀ = (keys k₀).guard from h.guard _]
        rfl
      · exact h.guard k
    · dsimp only
      rw [stored_buriedBy]
      exact h.kept
    · rwa [Table.TruncatedBy, hrewrites.truncates]
  · have hsame : ∀ k, T.stepKeys keys keyed k = keys k := by
      intro k
      unfold stepKeys
      split
      · rename_i hk
        rw [(hconcerns k).mp hk, Keyed.State.step, if_neg hop', Keyed.State.accepts,
          ← hadmits, Bool.eq_false_iff.mpr hadmitted]
        rfl
      · rfl
    refine ⟨(table, tombstones), ?_,
      ⟨hwf, hcolumns, h.stones, fun k => ?_, fun k => ?_, hsound, h.kept⟩, hle⟩
    · rw [applyChange, if_neg hop]
      dsimp only
      rw [Bool.eq_false_iff.mpr hadmitted]
      rfl
    · rw [hsame]
      exact h.row k
    · rw [hsame]
      exact h.guard k

theorem Simulates.apply (hmask : mask change.place = .ok unchanged)
    (hnamed : change.op ≠ .truncate → (sources.keyCells T.key change.place).allNull = false) :
    T.Advances sources mask state keys change unchanged := by
  by_cases hop : change.op = .truncate
  · exact h.truncate hproper hle hop
  · exact h.keyed hproper hle hop hmask (hnamed hop)

end

end

/-! ## A run of changes -/

/-- What each key is once the changes that concern it apply, in the order given. -/
def runKeys (T : ChangeTable D) (keys : Bytes → T.KeyState) (changes : List T.KeyedChange)
    (k : Bytes) : T.KeyState :=
  (keys k).run T.layout (changes.filter (T.concerns k))

theorem runKeys_cons (keys : Bytes → T.KeyState) (change : T.KeyedChange)
    (changes : List T.KeyedChange) :
    T.runKeys keys (change :: changes) = T.runKeys (T.stepKeys keys change) changes := by
  funext k
  by_cases hconcerns : T.concerns k change
  · simp [runKeys, stepKeys, hconcerns, Keyed.State.run]
  · simp [runKeys, stepKeys, hconcerns]

/-- Changes in sequence order do to the table and its tombstones what they do to each key. -/
theorem Simulates.run {sources : Sources D T.stored}
    (mask : At → Except MergeError (Option (T.stored.Column → Bool))) (changes : List Change)
    (hchanges : ∀ change ∈ changes, ∃ unchanged, mask change.place = .ok unchanged ∧
      change.keyed sources T.key unchanged = T.keyedOf sources change.place)
    (hproper : ∀ change ∈ changes, T.Proper (T.keyedOf sources change.place))
    (hnamed : ∀ change ∈ changes, (T.keyedOf sources change.place).op ≠ .truncate →
      (T.keyedOf sources change.place).names.allNull = false)
    (hsorted : changes.Pairwise fun left right => left.seq ≤ right.seq)
    {state : Table T.stored × Tombstones D T.key} (h : T.Simulates sources state keys)
    (hle : ∀ truncate ∈ state.1.truncates, ∀ change ∈ changes, truncate.seq ≤ change.seq) :
    ∃ state', changes.foldlM (applyChange sources (T.keyAt sources) mask) state = .ok state' ∧
      T.Simulates sources state'
        (T.runKeys keys (changes.map fun change => T.keyedOf sources change.place)) := by
  induction changes generalizing state keys with
  | nil => exact ⟨state, rfl, h⟩
  | cons change changes ih =>
    obtain ⟨unchanged, hmask, hkeyed⟩ := hchanges change List.mem_cons_self
    have hproper' := hproper change List.mem_cons_self
    have hnamed' := hnamed change List.mem_cons_self
    rw [← hkeyed] at hproper' hnamed'
    obtain ⟨state₁, happly, h₁, hle₁⟩ := h.apply hproper' (fun truncate htruncate =>
      hle truncate htruncate change List.mem_cons_self) hmask hnamed'
    obtain ⟨hfirst, hrest⟩ := List.pairwise_cons.mp hsorted
    obtain ⟨state', hrun, h'⟩ :=
      ih (fun other hother => hchanges other (List.mem_cons_of_mem _ hother))
      (fun other hother => hproper other (List.mem_cons_of_mem _ hother))
      (fun other hother => hnamed other (List.mem_cons_of_mem _ hother)) hrest h₁
      fun truncate htruncate other hother =>
        (hle₁ truncate htruncate).trans (hfirst other hother)
    refine ⟨state', Lib.bind_eq_ok.mpr ⟨state₁, happly, hrun⟩, ?_⟩
    rw [List.map_cons, runKeys_cons, ← hkeyed]
    exact h'

end ChangeTable

end Rdlt.Merge
