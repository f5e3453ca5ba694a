/-
  Rdlt.Lib.Patch

  A patch of a map: for each key it changes, the value it leaves there or none
  where it takes the key out.
-/

import Rdlt.Lib.Saturating
import Rdlt.Lib.Last

namespace Rdlt.Lib

/-! ## Changes of sizes -/

section Sizes

variable {κ : Type} (before : κ → Nat)

section

variable (grown : Nat × Nat) (l : List (κ × Option Nat)) (total : Nat)

/-- What the keys a list of changes names held. -/
def heldBefore : Nat := (l.map fun entry => before entry.1).sum

/-- What a list of changes leaves at the keys it names. -/
def heldAfter : Nat := (l.map fun entry => entry.2.getD 0).sum

/-- A running total moved by one change. -/
def moveTotal (entry : κ × Option Nat) : Nat :=
  saturatingAdd (total - before entry.1) (entry.2.getD 0)

/-- By how much changes grow and shrink what the keys they name hold, moved by one change. -/
def moveGrowth (entry : κ × Option Nat) : Nat × Nat :=
  (saturatingAdd grown.1 (entry.2.getD 0 - before entry.1),
    saturatingAdd grown.2 (before entry.1 - entry.2.getD 0))

theorem foldl_moveTotal
    (hheld : heldBefore before l ≤ total) (hfits : total + heldAfter l ≤ u64Max) :
    l.foldl (moveTotal before) total + heldBefore before l = total + heldAfter l := by
  induction l generalizing total with
  | nil => rfl
  | cons entry l ih =>
    simp only [heldBefore, heldAfter, List.map_cons, List.sum_cons] at hheld hfits ih ⊢
    have hmoved : moveTotal before total entry = total - before entry.1 + entry.2.getD 0 :=
      saturatingAdd_of_le (by omega)
    have hrest := ih (total - before entry.1 + entry.2.getD 0) (by omega) (by omega)
    rw [List.foldl_cons, hmoved]
    omega

theorem foldl_moveGrowth (grown : Nat × Nat)
    (hheld : grown.2 + heldBefore before l ≤ u64Max) (hfits : grown.1 + heldAfter l ≤ u64Max) :
    (l.foldl (moveGrowth before) grown).1 + heldBefore before l + grown.2
      = (l.foldl (moveGrowth before) grown).2 + heldAfter l + grown.1 := by
  induction l generalizing grown with
  | nil => exact Nat.add_comm _ _
  | cons entry l ih =>
    simp only [heldBefore, heldAfter, List.map_cons, List.sum_cons] at hheld hfits ih ⊢
    have hmoved : moveGrowth before grown entry = (grown.1 + (entry.2.getD 0 - before entry.1),
          grown.2 + (before entry.1 - entry.2.getD 0)) :=
      Prod.ext (saturatingAdd_of_le (by omega)) (saturatingAdd_of_le (by omega))
    have hrest := ih (grown.1 + (entry.2.getD 0 - before entry.1),
      grown.2 + (before entry.1 - entry.2.getD 0)) (by dsimp only; omega) (by dsimp only; omega)
    rw [List.foldl_cons, hmoved]
    dsimp only at hrest
    omega

end

end Sizes

/-! ## Patches -/

variable {κ : Type} [LinearOrder κ] {β : Type}

section

variable (t : OrdMap κ β)

def OrdMap.change (entry : κ × Option β) : OrdMap κ β :=
  match entry.2 with
  | some v => t.insert entry.1 v
  | none => t.erase entry.1

def OrdMap.patch (t : OrdMap κ β) (patch : OrdMap κ (Option β)) : OrdMap κ β :=
  patch.toList.foldl OrdMap.change t

theorem OrdMap.getElem?_change (entry : κ × Option β) (k : κ) :
    (t.change entry)[k]? = if entry.1 = k then entry.2 else t[k]? := by
  obtain ⟨k', v⟩ := entry
  cases v with
  | none => exact getElem?_erase t k' k
  | some v => exact getElem?_insert t k' k v

theorem OrdMap.getElem?_patch (patch : OrdMap κ (Option β)) (k : κ) :
    (t.patch patch)[k]? = patch[k]?.getD t[k]? := by
  have hchange : ∀ (t : OrdMap κ β) (entry : κ × Option β),
      (t.change entry)[k]? = (if entry.1 = k then some entry.2 else none).getD t[k]? := by
    intro t entry
    rw [getElem?_change]
    split <;> rfl
  rw [OrdMap.patch, Lib.lookup_foldl _ (fun t : OrdMap κ β => t[k]?) _ hchange,
    lastSome_toList_bind patch k some]
  cases patch[k]? <;> rfl

theorem OrdMap.total_change (t : OrdMap κ Nat) (entry : κ × Option Nat) :
    total (t.change entry) id + t[entry.1]?.getD 0 = total t id + entry.2.getD 0 := by
  obtain ⟨k, v⟩ := entry
  have helim : t[k]?.elim 0 id = t[k]?.getD 0 := by cases t[k]? <;> rfl
  cases v with
  | none =>
    have herase := total_erase t id k
    rw [helim] at herase
    exact herase
  | some v =>
    have hinsert := total_insert t id k v
    rw [helim] at hinsert
    exact hinsert

theorem OrdMap.total_foldl_change (t : OrdMap κ Nat) (l : List (κ × Option Nat))
    (hdistinct : (l.map Prod.fst).Nodup) :
    total (l.foldl OrdMap.change t) id + heldBefore (fun k => t[k]?.getD 0) l
      = total t id + heldAfter l := by
  induction l generalizing t with
  | nil => rfl
  | cons entry l ih =>
    rw [List.map_cons, List.nodup_cons] at hdistinct
    have hrest := ih (t.change entry) hdistinct.2
    have hsame : heldBefore (fun k => (t.change entry)[k]?.getD 0) l
        = heldBefore (fun k => t[k]?.getD 0) l := by
      refine congrArg List.sum (List.map_congr_left fun other hother => ?_)
      dsimp only
      rw [getElem?_change, if_neg]
      exact fun heq => hdistinct.1 (heq ▸ List.mem_map_of_mem hother)
    rw [hsame] at hrest
    have hone := total_change t entry
    simp only [heldBefore, heldAfter, List.map_cons, List.sum_cons] at hrest ⊢
    rw [List.foldl_cons]
    omega

theorem OrdMap.nodup_keys : (t.toList.map Prod.fst).Nodup := by
  rw [List.nodup_iff_pairwise_ne, List.pairwise_map]
  exact t.distinct_keys_toList.imp fun hab heq => by simp [heq] at hab

theorem OrdMap.total_patch (t : OrdMap κ Nat) (patch : OrdMap κ (Option Nat)) :
    total (t.patch patch) id + heldBefore (fun k => t[k]?.getD 0) patch.toList
      = total t id + heldAfter patch.toList :=
  total_foldl_change t patch.toList patch.nodup_keys

theorem OrdMap.heldBefore_le (t : OrdMap κ Nat) (patch : OrdMap κ (Option Nat)) :
    heldBefore (fun k => t[k]?.getD 0) patch.toList ≤ total t id := by
  have herased := total_foldl_change t (patch.toList.map fun entry => (entry.1, none))
    (by simpa [List.map_map, Function.comp_def] using patch.nodup_keys)
  simp only [heldBefore, heldAfter, List.map_map, Function.comp_def, Option.getD_none,
    List.map_const', List.sum_replicate, smul_zero, add_zero] at herased ⊢
  omega

theorem OrdMap.total_foldl_erase (t : OrdMap κ Nat) {keys : List κ} (hdistinct : keys.Nodup) :
    total (keys.foldl (fun t k => t.erase k) t) id + (keys.map fun k => t[k]?.getD 0).sum
      = total t id := by
  have hchanged := total_foldl_change t (keys.map fun k => (k, none))
    (by simpa [List.map_map, Function.comp_def] using hdistinct)
  simp only [heldBefore, heldAfter, List.map_map, List.foldl_map, Function.comp_def,
    Option.getD_none, List.map_const', List.sum_replicate, smul_zero, add_zero] at hchanged
  exact hchanged

theorem OrdMap.getElem?_foldl_erase (keys : List κ) (k : κ) :
    (keys.foldl (fun t k => t.erase k) t)[k]? = if k ∈ keys then none else t[k]? := by
  induction keys generalizing t with
  | nil => simp
  | cons key keys ih =>
    rw [List.foldl_cons, ih, getElem?_erase]
    by_cases hkey : key = k
    · simp [hkey]
    · simp [hkey, Ne.symm hkey]

theorem OrdMap.patch_foldl_insert_none (patch : OrdMap κ (Option β))
    (keys : List κ) : t.patch (keys.foldl (fun patch k => patch.insert k none) patch)
      = keys.foldl (fun t k => t.erase k) (t.patch patch) := by
  refine OrdMap.ext fun k => ?_
  rw [getElem?_foldl_erase, getElem?_patch, getElem?_patch]
  induction keys generalizing patch with
  | nil => simp
  | cons key keys ih =>
    rw [List.foldl_cons, ih, getElem?_insert]
    by_cases hkey : key = k
    · simp [hkey]
    · simp [hkey, Ne.symm hkey]

end

/-! ## The shortest prefix that reaches -/

section Reach

variable {α : Type} (freed : α → Nat)

/-- How many of the first of a list it takes for what they free to reach `need`; none where all of
    them do not. -/
def reach : Nat → List α → Option Nat
  | need, [] => if need = 0 then some 0 else none
  | need, a :: l => if need = 0 then some 0 else (reach (need - freed a) l).map (· + 1)

theorem reach_eq_some {need n : Nat} {l : List α} (h : reach freed need l = some n) :
    n ≤ l.length ∧ need ≤ ((l.take n).map freed).sum ∧
      ∀ m < n, ((l.take m).map freed).sum < need := by
  induction l generalizing need n with
  | nil =>
    obtain ⟨rfl, rfl⟩ : need = 0 ∧ 0 = n := by simpa [reach] using h
    simp
  | cons a l ih =>
    rw [reach] at h
    split at h
    · rename_i hzero
      cases h
      simp [hzero]
    · rename_i hneed
      obtain ⟨n, hrest, rfl⟩ := Option.map_eq_some_iff.mp h
      obtain ⟨hlength, hreached, hshort⟩ := ih hrest
      refine ⟨Nat.succ_le_succ hlength, ?_, ?_⟩
      · simp only [List.take_succ_cons, List.map_cons, List.sum_cons]
        omega
      · intro m hm
        cases m with
        | zero => simpa using Nat.pos_of_ne_zero hneed
        | succ m =>
          have hless := hshort m (Nat.lt_of_succ_lt_succ hm)
          simp only [List.take_succ_cons, List.map_cons, List.sum_cons]
          omega

theorem reach_eq_none {need : Nat} {l : List α} (h : reach freed need l = none) :
    (l.map freed).sum < need := by
  induction l generalizing need with
  | nil => simpa [reach, Nat.pos_iff_ne_zero] using h
  | cons a l ih =>
    rw [reach] at h
    split at h
    · cases h
    · have hless := ih (Option.map_eq_none_iff.mp h)
      simp only [List.map_cons, List.sum_cons]
      omega

end Reach

end Rdlt.Lib
