/-
  Rdlt.Merge.Refine.HistoryRun

  Applying changes to a history table and its tombstones, key by key: each
  change does to them what it does to the keys it concerns.
-/

import Rdlt.Merge.Refine.History

namespace Rdlt.Merge

open History (Guards)

namespace HistoryTable

variable {D : Type} {H : HistoryTable D} {sources : Sources D H.stored}

/-- The table and tombstones of a merge hold of each key what `keys` says. -/
structure Simulates (H : HistoryTable D) (sources : Sources D H.stored)
    (state : History × Tombstones D H.key) (keys : Bytes → H.KeyState) : Prop where
  holds : H.Holds sources state.1 keys
  guard : ∀ k, state.2.guard (sources.keyCells H.key) k = (keys k).guard

/-- A change a merge reads, as one of its key's. -/
def keyChange (sources : Sources D H.stored) (change : Change) : H.KeyChange where
  op := change.op
  row := sources.cell change.place
  names := sources.keyCells H.key change.place

def stepKeys (H : HistoryTable D) (keys : Bytes → H.KeyState) (change : H.KeyChange) (k : Bytes) :
    H.KeyState :=
  if H.concerns k change then (keys k).step H.life H.guarded change else keys k

/-- What a merge gives a change: its sequence, and where deletes are soft, a truncate's deletion
    time. -/
structure Proper (H : HistoryTable D) (sources : Sources D H.stored) (change : Change) : Prop where
  placed : Placed sources change.place
  seq : change.seq = H.life.seq (sources.cell change.place)
  timed : change.op = .truncate → H.life.hard = false → H.life.deleted (sources.cell change.place)

section

variable {state : History × Tombstones D H.key} {keys : Bytes → H.KeyState} {change : Change}

theorem hard_eq : (H.guardsOf sources).times.isNone = H.life.hard := by
  simp [guardsOf, life]

/-- A truncate does to the table and its tombstones what it does to every key. -/
theorem Simulates.truncate (h : H.Simulates sources state keys) (hop : change.op = .truncate)
    (hproper : H.Proper sources change)
    (hle : ∀ truncate ∈ state.1.truncates, (H.guardsOf sources).seq truncate ≤ change.seq) :
    H.Simulates sources (applyHistory (H.guardsOf sources) (H.keyAt sources) H.guarded state change)
        (H.stepKeys keys (keyChange sources change)) ∧
      ∀ truncate ∈ (applyHistory (H.guardsOf sources) (H.keyAt sources) H.guarded state
          change).1.truncates, (H.guardsOf sources).seq truncate ≤ change.seq := by
  obtain ⟨table, tombstones⟩ := state
  have hstep : ∀ k, H.stepKeys keys (keyChange sources change) k
      = (keys k).truncate H.life (sources.cell change.place) := by
    intro k
    have hop' : (keyChange sources change : H.KeyChange).op = .truncate := hop
    rw [stepKeys, if_pos (by simp [concerns, hop']), Versioned.State.step, if_pos hop']
    rfl
  have hreached : ∀ k, (keys k).guard.reached change.seq = tombstones.admits none change.seq :=
    fun k => by
      rw [← h.guard k]
      exact (Tombstones.admits_none (sources.keyCells H.key) tombstones k change.seq).symm
  rw [applyHistory, if_pos hop]
  split
  case isFalse hnot =>
    refine ⟨?_, hle⟩
    have hsame : H.stepKeys keys (keyChange sources change) = keys := by
      funext k
      rw [hstep, Versioned.State.truncate, ← hproper.seq, if_neg (by rwa [hreached])]
    rw [hsame]
    exact h
  case isTrue hadmits =>
    have hpast : ∀ k, H.stepKeys keys (keyChange sources change) k
        = { (keys k).cleared H.life (sources.cell change.place) with
            guard := if H.life.hard then (keys k).guard.raise change.seq else (keys k).guard } := by
      intro k
      rw [hstep, Versioned.State.truncate, ← hproper.seq, if_pos ((hreached k).trans hadmits)]
    refine ⟨⟨?_, fun k => ?_⟩, ?_⟩
    · have hclear := h.holds.truncate hproper.placed (fun truncate htruncate =>
        (hle truncate htruncate).trans_eq hproper.seq) (hproper.timed hop)
      refine hclear.congr fun k => ?_
      rw [hpast]
    · rw [hpast, ← h.guard k, hard_eq]
      dsimp only
      split
      · exact Tombstones.guard_raise _ tombstones change.seq k
      · rfl
    · intro truncate htruncate
      rcases List.mem_append.mp htruncate with htruncate | htruncate
      · exact hle truncate htruncate
      · rw [List.mem_singleton.mp htruncate]
        exact hproper.seq.ge

def appliedTo (guards : Guards) (k : Bytes) (change : Change) (tombstones : Tombstones D H.key)
    (table : History) : History × Tombstones D H.key :=
  if change.op = .delete then
    (table.delete guards k change.place,
      if guards.times.isNone then tombstones.bury k change.seq change.place else tombstones)
  else (table.upsert guards k change.place, tombstones.lift k)

/-- How a change of a key applies: where it is guarded, only past its tombstone and the bound, and
    past its newest version. -/
theorem applyHistory_of_ne {guards : Guards} {keys : At → Bytes} {guarded : Bool}
    (hop : change.op ≠ .truncate) (table : History) (tombstones : Tombstones D H.key) :
    applyHistory guards keys guarded (table, tombstones) change = if guarded then
          if tombstones.admits (some (keys change.place)) change.seq then
            if (table.past guards (keys change.place) change.place).2 then
              appliedTo guards (keys change.place) change tombstones
                (table.past guards (keys change.place) change.place).1
            else ((table.past guards (keys change.place) change.place).1, tombstones)
          else (table, tombstones)
        else appliedTo guards (keys change.place) change tombstones table := by
  unfold applyHistory
  dsimp only
  rw [if_neg hop]
  cases guarded with
  | false => rfl
  | true =>
    by_cases hadmits : tombstones.admits (some (keys change.place)) change.seq
    · simp only [hadmits, if_true]
      cases (table.past guards (keys change.place) change.place).2 <;> rfl
    · simp [hadmits]

/-- A delete or an upsert that applies does to the table and its tombstones what it does to its
    key. -/
theorem Simulates.applied {table : History} {tombstones : Tombstones D H.key}
    (h : H.Simulates sources (table, tombstones) keys) (hproper : H.Proper sources change) :
    H.Simulates sources
      (appliedTo (H.guardsOf sources) (H.keyAt sources change.place) change tombstones table)
      (Function.update keys (H.keyAt sources change.place) (if change.op = .delete then
          (keys (H.keyAt sources change.place)).delete H.life (keyChange sources change)
        else (keys (H.keyAt sources change.place)).upsert H.life (keyChange sources change))) := by
  unfold appliedTo
  set k := H.keyAt sources change.place with hk
  by_cases hdelete : change.op = .delete
  · rw [if_pos hdelete, if_pos hdelete]
    constructor
    · refine (h.holds.delete k hproper.placed).congr fun k' => ?_
      by_cases hsame : k' = k
      · subst hsame
        simp only [Function.update_self]
        rfl
      · simp only [Function.update_of_ne hsame]
    · intro k'
      rw [hard_eq]
      by_cases hsame : k' = k
      · subst hsame
        rw [Function.update_self, Versioned.State.delete]
        dsimp only
        split
        · rw [Tombstones.guard_bury, if_pos rfl, h.guard, hproper.seq]
          rfl
        · exact h.guard _
      · rw [Function.update_of_ne hsame, ← h.guard k']
        dsimp only
        split
        · rw [Tombstones.guard_bury, if_neg hsame]
        · rfl
  · rw [if_neg hdelete, if_neg hdelete]
    constructor
    · refine (h.holds.upsert hproper.placed hk.symm).congr fun k' => ?_
      by_cases hsame : k' = k
      · subst hsame
        simp only [Function.update_self]
        rfl
      · simp only [Function.update_of_ne hsame]
    · intro k'
      rw [Tombstones.guard_lift]
      by_cases hsame : k' = k
      · subst hsame
        rw [if_pos rfl, Function.update_self, h.guard]
        rfl
      · rw [if_neg hsame, Function.update_of_ne hsame, h.guard]

/-- A change of a key does to the table and its tombstones what it does to the key. -/
theorem Simulates.keyed (h : H.Simulates sources state keys) (hop : change.op ≠ .truncate)
    (hproper : H.Proper sources change) : H.Simulates sources
        (applyHistory (H.guardsOf sources) (H.keyAt sources) H.guarded state change)
        (H.stepKeys keys (keyChange sources change)) ∧
      (applyHistory (H.guardsOf sources) (H.keyAt sources) H.guarded state change).1.truncates
        = state.1.truncates := by
  obtain ⟨table, tombstones⟩ := state
  set k := H.keyAt sources change.place with hk
  have hop' : (keyChange sources change : H.KeyChange).op ≠ .truncate := hop
  have hconcerns : ∀ k', H.concerns k' (keyChange sources change) = true ↔ k' = k := by
    intro k'
    rw [concerns, beq_eq_false_iff_ne.mpr hop', Bool.false_or, beq_iff_eq]
    exact eq_comm
  have hstep : H.stepKeys keys (keyChange sources change)
      = Function.update keys k ((keys k).step H.life H.guarded (keyChange sources change)) := by
    funext k'
    by_cases hsame : k' = k
    · rw [stepKeys, if_pos ((hconcerns k').mpr hsame), hsame, Function.update_self]
    · rw [stepKeys, if_neg (mt (hconcerns k').mp hsame), Function.update_of_ne hsame]
  have hadmits : tombstones.admits (some k) change.seq = (keys k).guard.admits change.seq := by
    rw [← h.guard]
    exact Tombstones.admits_some (sources.keyCells H.key) tombstones k change.seq
  -- what is refused leaves the key, and what applies is what `applied` says
  have hrefused : (keys k).accepts H.guarded change.seq = false →
      H.stepKeys keys (keyChange sources change) = keys := by
    intro haccepts
    rw [hstep, Versioned.State.step, if_neg hop', ← show change.seq
      = H.life.seq (keyChange sources change).row from hproper.seq, haccepts]
    exact Function.update_eq_self k keys
  have haccepted : (keys k).accepts H.guarded change.seq = true →
      H.stepKeys keys (keyChange sources change) = Function.update keys k
        (if change.op = .delete then (keys k).delete H.life (keyChange sources change)
        else (keys k).upsert H.life (keyChange sources change)) := by
    intro haccepts
    rw [hstep, Versioned.State.step, if_neg hop', ← show change.seq
      = H.life.seq (keyChange sources change).row from hproper.seq, haccepts]
    rfl
  have happlies : ∀ table' : History, H.Holds sources table' keys →
      table'.truncates = table.truncates → (keys k).accepts H.guarded change.seq = true →
      H.Simulates sources (appliedTo (H.guardsOf sources) k change tombstones table')
          (H.stepKeys keys (keyChange sources change)) ∧
        (appliedTo (H.guardsOf sources) k change tombstones table').1.truncates
          = table.truncates := by
    intro table' hholds htruncates haccepts
    rw [haccepted haccepts]
    refine ⟨Simulates.applied ⟨hholds, h.guard⟩ hproper, ?_⟩
    unfold appliedTo History.delete History.upsert
    split <;> split <;> exact htruncates
  rw [applyHistory_of_ne hop, ← hk]
  cases hguarded : H.guarded with
  | false =>
    rw [if_neg Bool.false_ne_true]
    exact happlies table h.holds rfl (by simp [Versioned.State.accepts, hguarded])
  | true =>
    have haccepts : (keys k).accepts H.guarded change.seq
        = (tombstones.admits (some k) change.seq && (keys k).past change.seq) := by
      rw [Versioned.State.accepts, hguarded, hadmits]
      rfl
    obtain ⟨hholds, hpast, htruncates⟩ := h.holds.past k change.place
    rw [show (H.guardsOf sources).seq change.place = change.seq from hproper.seq.symm] at hpast
    rw [if_pos rfl, hpast]
    split
    · rename_i hadmitted
      rw [hadmitted, Bool.true_and] at haccepts
      split
      · rename_i hpast'
        exact happlies _ hholds htruncates (haccepts.trans hpast')
      · rename_i hpast'
        rw [hrefused (haccepts.trans (Bool.eq_false_iff.mpr hpast'))]
        exact ⟨⟨hholds, h.guard⟩, htruncates⟩
    · rename_i hadmitted
      rw [Bool.eq_false_iff.mpr hadmitted, Bool.false_and] at haccepts
      rw [hrefused haccepts]
      exact ⟨h, rfl⟩

end

/-! ## A run of changes -/

/-- What each key is once the changes that concern it apply, in the order given. -/
def runKeys (H : HistoryTable D) (keys : Bytes → H.KeyState) (changes : List H.KeyChange)
    (k : Bytes) : H.KeyState :=
  (keys k).run H.life H.guarded (changes.filter (H.concerns k))

theorem runKeys_cons (keys : Bytes → H.KeyState) (change : H.KeyChange)
    (changes : List H.KeyChange) :
    H.runKeys keys (change :: changes) = H.runKeys (H.stepKeys keys change) changes := by
  funext k
  by_cases hconcerns : H.concerns k change
  · simp [runKeys, stepKeys, hconcerns, Versioned.State.run]
  · simp [runKeys, stepKeys, hconcerns]

/-- Changes in sequence order do to the table and its tombstones what they do to each key. -/
theorem Simulates.run (changes : List Change)
    (hproper : ∀ change ∈ changes, H.Proper sources change)
    (hsorted : changes.Pairwise fun left right => left.seq ≤ right.seq)
    {state : History × Tombstones D H.key} {keys : Bytes → H.KeyState}
    (h : H.Simulates sources state keys)
    (hle : ∀ truncate ∈ state.1.truncates, ∀ change ∈ changes,
      (H.guardsOf sources).seq truncate ≤ change.seq) :
    H.Simulates sources
      (changes.foldl (applyHistory (H.guardsOf sources) (H.keyAt sources) H.guarded) state)
      (H.runKeys keys (changes.map (keyChange sources))) := by
  induction changes generalizing state keys with
  | nil => exact h
  | cons change changes ih =>
    obtain ⟨hfirst, hrest⟩ := List.pairwise_cons.mp hsorted
    have hproper' := hproper change List.mem_cons_self
    have hle' : ∀ truncate ∈ state.1.truncates, (H.guardsOf sources).seq truncate ≤ change.seq :=
      fun truncate htruncate => hle truncate htruncate change List.mem_cons_self
    have hstep : H.Simulates sources
          (applyHistory (H.guardsOf sources) (H.keyAt sources) H.guarded state change)
          (H.stepKeys keys (keyChange sources change)) ∧
        ∀ truncate ∈ (applyHistory (H.guardsOf sources) (H.keyAt sources) H.guarded state
            change).1.truncates, (H.guardsOf sources).seq truncate ≤ change.seq := by
      by_cases hop : change.op = .truncate
      · exact h.truncate hop hproper' hle'
      · obtain ⟨hsimulates, htruncates⟩ := h.keyed hop hproper'
        exact ⟨hsimulates, htruncates ▸ hle'⟩
    rw [List.foldl_cons, List.map_cons, runKeys_cons]
    exact ih (fun other hother => hproper other (List.mem_cons_of_mem _ hother)) hrest hstep.1
      fun truncate htruncate other hother =>
        (hstep.2 truncate htruncate).trans (hfirst other hother)

/-! ## Tombstones -/

/-- Changes that name their keys leave tombstones that do, and what is stored of them. -/
theorem stones_run {encode : KeyCells D H.key → Bytes} {guards : Guards} {keys : At → Bytes}
    (hkeys : ∀ place, keys place = encode (sources.keyCells H.key place)) (changes : List Change)
    (hnamed : ∀ change ∈ changes, change.op ≠ .truncate →
      (sources.keyCells H.key change.place).allNull = false)
    {guarded : Bool} {state : History × Tombstones D H.key}
    (hwf : state.2.WF (sources.keyCells H.key) encode) :
    (changes.foldl (applyHistory guards keys guarded) state).2.WF (sources.keyCells H.key) encode ∧
      (changes.foldl (applyHistory guards keys guarded) state).2.stored = state.2.stored := by
  induction changes generalizing state with
  | nil => exact ⟨hwf, rfl⟩
  | cons change changes ih =>
    have hstep :
        (applyHistory guards keys guarded state change).2.WF (sources.keyCells H.key) encode ∧
        (applyHistory guards keys guarded state change).2.stored = state.2.stored := by
      obtain ⟨table, tombstones⟩ := state
      by_cases hop : change.op = .truncate
      · unfold applyHistory
        dsimp only
        rw [if_pos hop]
        split
        · split
          · exact ⟨hwf.raise change.seq, Tombstones.stored_raise ..⟩
          · exact ⟨hwf, rfl⟩
        · exact ⟨hwf, rfl⟩
      · have happlied : ∀ table, (appliedTo guards (keys change.place) change tombstones
            table).2.WF (sources.keyCells H.key) encode ∧
            (appliedTo guards (keys change.place) change tombstones table).2.stored
              = tombstones.stored := by
          intro table
          unfold appliedTo
          split
          · dsimp only
            split
            · exact ⟨hwf.bury change.seq (hkeys change.place).symm
                (hnamed change List.mem_cons_self hop), rfl⟩
            · exact ⟨hwf, rfl⟩
          · exact ⟨hwf.lift _, rfl⟩
        rw [applyHistory_of_ne hop]
        split
        · split
          · split
            · exact happlied _
            · exact ⟨hwf, rfl⟩
          · exact ⟨hwf, rfl⟩
        · exact happlied _
    obtain ⟨hwf', hstored⟩ := ih (fun other hother => hnamed other (List.mem_cons_of_mem _ hother))
      hstep.1
    exact ⟨hwf', hstored.trans hstep.2⟩

end HistoryTable

end Rdlt.Merge
