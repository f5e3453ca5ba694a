/-
  Rdlt.Lib.Group

  A list gathered into an ordered map of buckets, one for each key: `group`
  models the loop that pushes each element onto the entry of its key.
-/

import Rdlt.Lib.StableSort

namespace Rdlt.Lib

abbrev OrdMap (κ β : Type) [LinearOrder κ] := Std.ExtTreeMap κ β compare

instance OrdMap.transCmp {κ : Type} [LinearOrder κ] :
    Std.TransCmp (@compare κ LinearOrder.toOrd) := inferInstance

variable {α κ : Type} [LinearOrder κ]

/-! ## Looking keys up -/

namespace OrdMap

variable {β : Type} (t : OrdMap κ β)

theorem getElem?_insert (k k' : κ) (v : β) :
    (t.insert k v)[k']? = if k = k' then some v else t[k']? := by
  simp [Std.ExtTreeMap.getElem?_insert]

theorem getElem?_erase (k k' : κ) : (t.erase k)[k']? = if k = k' then none else t[k']? := by
  simp [Std.ExtTreeMap.getElem?_erase]

theorem mem_toList {k : κ} {v : β} : (k, v) ∈ t.toList ↔ t[k]? = some v :=
  Std.ExtTreeMap.mem_toList_iff_getElem?_eq_some

theorem contains_eq_false_iff {k : κ} : t.contains k = false ↔ t[k]? = none := by
  rw [Std.ExtTreeMap.contains_eq_isSome_getElem?]
  cases t[k]? <;> simp

end OrdMap

/-! ## Gathering -/

variable (key : α → κ) (l : List α) (buckets : OrdMap κ (List α))

def group (key : α → κ) (l : List α) : OrdMap κ (List α) :=
  l.foldl (fun buckets a => buckets.alter (key a) fun held => some (held.getD [] ++ [a])) ∅

/-! ## What a bucket holds -/

theorem getElem?_foldl_alter (k : κ) :
    ((l.foldl (fun buckets a => buckets.alter (key a) fun held => some (held.getD [] ++ [a]))
        buckets)[k]?).getD []
      = (buckets[k]?).getD [] ++ l.filter (key · = k) := by
  induction l generalizing buckets with
  | nil => simp
  | cons a l ih =>
    rw [List.foldl_cons, ih, Std.ExtTreeMap.getElem?_alter, List.filter_cons]
    by_cases hk : key a = k
    · subst hk
      simp
    · simp [hk]

theorem getElem?_group (k : κ) : ((group key l)[k]?).getD [] = l.filter (key · = k) := by
  rw [group, getElem?_foldl_alter]
  simp

theorem key_of_mem_group {key : α → κ} {l : List α} {k : κ} {bucket : List α}
    (hbucket : (k, bucket) ∈ (group key l).toList) : ∀ a ∈ bucket, key a = k := by
  intro a ha
  have hget := OrdMap.mem_toList _ |>.mp hbucket
  have hfilter : bucket = l.filter (key · = k) := by
    rw [← getElem?_group, hget]
    rfl
  rw [hfilter] at ha
  simpa using (List.mem_filter.mp ha).2

theorem foldl_alter_ne_nil (hne : ∀ k : κ, buckets[k]? ≠ some []) (k : κ) :
    (l.foldl (fun buckets a => buckets.alter (key a) fun held => some (held.getD [] ++ [a]))
        buckets)[k]? ≠ some [] := by
  induction l generalizing buckets with
  | nil => exact hne k
  | cons a l ih =>
    rw [List.foldl_cons]
    refine ih _ fun k' => ?_
    rw [Std.ExtTreeMap.getElem?_alter]
    split
    · simp
    · exact hne k'

theorem exists_mem_of_mem_group {key : α → κ} {l : List α} {k : κ} {bucket : List α}
    (hbucket : (k, bucket) ∈ (group key l).toList) : ∃ a, a ∈ bucket := by
  have hget := OrdMap.mem_toList _ |>.mp hbucket
  refine List.exists_mem_of_ne_nil bucket ?_
  rintro rfl
  exact foldl_alter_ne_nil key l ∅ (by simp) k hget

/-! ## What the buckets hold together -/

theorem toList_filter_key {β : Type} (t : OrdMap κ β) (k : κ) :
    t.toList.filter (·.1 = k) = ((t[k]?).map (k, ·)).toList := by
  have hnodup : t.toList.Nodup := by
    refine t.distinct_keys_toList.imp ?_
    rintro a b hab rfl
    simp at hab
  have hperm : (t.toList.filter (·.1 = k)).Perm ((t[k]?).map (k, ·)).toList := by
    refine (List.perm_ext_iff_of_nodup (hnodup.filter _) (by cases t[k]? <;> simp)).mpr ?_
    rintro ⟨k', v⟩
    rw [List.mem_filter, OrdMap.mem_toList]
    constructor
    · rintro ⟨hget, hk⟩
      have hk : k' = k := by simpa using hk
      subst hk
      simp [hget]
    · intro hmem
      cases hget : t[k]? with
      | none => simp [hget] at hmem
      | some w =>
        simp only [hget, Option.map_some, Option.toList_some, List.mem_singleton,
          Prod.mk.injEq] at hmem
        obtain ⟨rfl, rfl⟩ := hmem
        simp [hget]
  -- the map has at most one entry of the key
  cases hget : t[k]? with
  | none => simpa [hget] using hperm
  | some v => simpa [hget, List.perm_singleton] using hperm

theorem filter_flatMap_buckets {key : α → κ} (buckets : List (κ × List α))
    (hkeys : ∀ entry ∈ buckets, ∀ a ∈ entry.2, key a = entry.1) (k : κ) :
    (buckets.flatMap Prod.snd).filter (key · = k)
      = (buckets.filter (·.1 = k)).flatMap Prod.snd := by
  induction buckets with
  | nil => rfl
  | cons entry buckets ih =>
    obtain ⟨k', bucket⟩ := entry
    have hbucket : ∀ a ∈ bucket, key a = k' := hkeys (k', bucket) List.mem_cons_self
    rw [List.flatMap_cons, List.filter_append,
      ih fun entry hentry => hkeys entry (List.mem_cons_of_mem _ hentry), List.filter_cons]
    by_cases hk : k' = k
    · have hall : bucket.filter (key · = k) = bucket :=
        List.filter_eq_self.mpr fun a ha => by simp [hbucket a ha, hk]
      simp [hk, hall]
    · have hnone : bucket.filter (key · = k) = [] :=
        List.filter_eq_nil_iff.mpr fun a ha => by simp [hbucket a ha, hk]
      simp [hk, hnone]

theorem group_flatMap_perm : ((group key l).toList.flatMap Prod.snd).Perm l := by
  refine perm_of_forall_filter_perm key fun k => ?_
  rw [filter_flatMap_buckets _ fun entry hentry => key_of_mem_group hentry, toList_filter_key,
    ← getElem?_group]
  cases (group key l)[k]? <;> simp

end Rdlt.Lib
