/-
  Rdlt.Lib.Last

  The last element of a list that says something, and what folding a list of
  changes does to one thing they change: the last change that is about it says
  what it is. Ordered maps read the same way, each key's entry being its only
  one. What their values add up to, by some measure of them, changes with each
  entry.
-/

import Rdlt.Lib.Group

namespace Rdlt.Lib

variable {α β γ σ : Type}

/-! ## The last to say something -/

variable (f : α → Option β)

/-- What `f` gives of the last element of `l` that it gives something of. -/
def lastSome (f : α → Option β) (l : List α) : Option β := l.reverse.findSome? f

@[simp] theorem lastSome_nil : lastSome f [] = none := rfl

theorem lastSome_append (l m : List α) :
    lastSome f (l ++ m) = (lastSome f m).or (lastSome f l) := by
  rw [lastSome, List.reverse_append, List.findSome?_append]
  rfl

theorem lastSome_cons (a : α) (l : List α) : lastSome f (a :: l) = (lastSome f l).or (f a) := by
  rw [lastSome, List.reverse_cons, List.findSome?_append, List.findSome?_singleton]
  rfl

theorem lastSome_concat (l : List α) (a : α) : lastSome f (l ++ [a]) = (f a).or (lastSome f l) := by
  rw [lastSome_append, lastSome_cons, lastSome_nil, Option.none_or]

theorem lastSome_map (f : β → Option γ) (g : α → β) (l : List α) :
    lastSome f (l.map g) = lastSome (f ∘ g) l := by
  rw [lastSome, ← List.map_reverse, List.findSome?_map]
  rfl

theorem lastSome_eq_none {f : α → Option β} {l : List α} :
    lastSome f l = none ↔ ∀ a ∈ l, f a = none := by
  simp [lastSome, List.findSome?_eq_none_iff]

theorem exists_of_lastSome {f : α → Option β} {l : List α} {b : β} (h : lastSome f l = some b) :
    ∃ a ∈ l, f a = some b := by
  obtain ⟨a, ha, hb⟩ := List.exists_of_findSome?_eq_some h
  exact ⟨a, List.mem_reverse.mp ha, hb⟩

theorem lastSome_congr {f g : α → Option β} {l : List α} (h : ∀ a ∈ l, f a = g a) :
    lastSome f l = lastSome g l := by
  induction l with
  | nil => rfl
  | cons a l ih =>
    rw [lastSome_cons, lastSome_cons, ih fun b hb => h b (List.mem_cons_of_mem _ hb),
      h a List.mem_cons_self]

theorem lastSome_filterMap (f : β → Option γ) (g : α → Option β) (l : List α) :
    lastSome f (l.filterMap g) = lastSome (fun a => (g a).bind f) l := by
  induction l with
  | nil => rfl
  | cons a l ih =>
    rw [lastSome_cons, List.filterMap_cons, ← ih]
    cases g a with
    | none => rw [Option.bind_none, Option.or_none]
    | some b => rw [lastSome_cons, Option.bind_some]

theorem lastSome_filter (p : α → Bool) (l : List α) :
    lastSome f (l.filter p) = lastSome (fun a => if p a then f a else none) l := by
  induction l with
  | nil => rfl
  | cons a l ih =>
    rw [lastSome_cons, List.filter_cons, ← ih]
    cases p a with
    | false => simp
    | true => simp [lastSome_cons]

theorem lastSome_optionMap (g : β → γ) (l : List α) :
    lastSome (fun a => (f a).map g) l = (lastSome f l).map g := by
  induction l with
  | nil => rfl
  | cons a l ih =>
    rw [lastSome_cons, lastSome_cons, ih]
    cases lastSome f l <;> simp

theorem lastSome_flatMap (f : β → Option γ) (g : α → List β) (l : List α) :
    lastSome f (l.flatMap g) = lastSome (fun a => lastSome f (g a)) l := by
  induction l with
  | nil => rfl
  | cons a l ih => rw [List.flatMap_cons, lastSome_append, lastSome_cons, ih]

theorem lastSome_of_unique {f : α → Option β} {l : List α} {i : Nat} {a : α} (ha : l[i]? = some a)
    (hothers : ∀ j b, l[j]? = some b → j ≠ i → f b = none) : lastSome f l = f a := by
  induction l generalizing i with
  | nil => simp at ha
  | cons b l ih =>
    rw [lastSome_cons]
    cases i with
    | zero =>
      have hnone : lastSome f l = none := by
        refine lastSome_eq_none.mpr fun c hc => ?_
        obtain ⟨j, hj⟩ := List.mem_iff_getElem?.mp hc
        exact hothers (j + 1) c (by simpa using hj) (by simp)
      rw [hnone, Option.none_or, show b = a by simpa using ha]
    | succ i =>
      rw [hothers 0 b (by simp) (by simp), Option.or_none]
      refine ih (by simpa using ha) fun j c hc hj => ?_
      exact hothers (j + 1) c (by simpa using hc) (by simpa using hj)

/-! ## Changes folded -/

theorem lookup_foldl (act : σ → α → σ) (lookup : σ → β) (sets : α → Option β)
    (hact : ∀ s a, lookup (act s a) = (sets a).getD (lookup s)) (l : List α) (s : σ) :
    lookup (l.foldl act s) = (lastSome sets l).getD (lookup s) := by
  induction l using List.reverseRecOn with
  | nil => rfl
  | append_singleton l a ih =>
    rw [List.foldl_append, List.foldl_cons, List.foldl_nil, hact, ih, lastSome_concat]
    cases sets a <;> rfl

/-! ## Ordered maps -/

namespace OrdMap

variable {κ : Type} [LinearOrder κ] (t : OrdMap κ β)

theorem ext {t u : OrdMap κ β} (h : ∀ k : κ, t[k]? = u[k]?) : t = u := Std.ExtTreeMap.ext_getElem? h

theorem getElem?_foldl_insert (l : List (κ × β)) (k : κ) :
    (l.foldl (fun t entry => t.insert entry.1 entry.2) t)[k]?
      = (lastSome (fun entry : κ × β => if entry.1 = k then some entry.2 else none)
        l).or t[k]? := by
  induction l using List.reverseRecOn with
  | nil => rfl
  | append_singleton l entry ih =>
    rw [List.foldl_append, List.foldl_cons, List.foldl_nil, getElem?_insert, ih, lastSome_concat]
    split <;> rfl

theorem getElem?_filterMap (t : OrdMap κ β) (f : κ → β → Option γ) (k : κ) :
    (t.filterMap f)[k]? = (t[k]?).bind (f k) := by
  rw [Std.ExtTreeMap.getElem?_filterMap]
  simp only [Std.ExtTreeMap.getKey_eq, Option.pbind_eq_bind]

theorem lastSome_toList_bind (k : κ) (f : β → Option γ) :
    lastSome (fun entry : κ × β => if entry.1 = k then f entry.2 else none) t.toList
      = (t[k]?).bind f := by
  have honly : ∀ entry ∈ t.toList, entry.1 = k → t[k]? = some entry.2 := by
    rintro entry hentry rfl
    exact (mem_toList t).mp hentry
  cases hlast : lastSome
    (fun entry : κ × β => if entry.1 = k then f entry.2 else none) t.toList with
  | some w =>
    obtain ⟨entry, hentry, hw⟩ := exists_of_lastSome hlast
    split at hw
    · rename_i hkey
      rw [honly entry hentry hkey, Option.bind_some, hw]
    · cases hw
  | none =>
    cases hget : t[k]? with
    | none => rfl
    | some v =>
      have hnone := lastSome_eq_none.mp hlast (k, v) ((mem_toList t).mpr hget)
      simpa using hnone.symm

theorem lastSome_toList (k : κ) (g : β → γ) :
    lastSome (fun entry : κ × β => if entry.1 = k then some (g entry.2) else none) t.toList
      = (t[k]?).map g := by
  rw [lastSome_toList_bind t k fun v => some (g v)]
  cases t[k]? <;> rfl

/-! ## What values add up to -/

section Totals

variable (f : β → Nat)

/-- What `f` of the map's values adds up to. -/
def total (t : OrdMap κ β) (f : β → Nat) : Nat := (t.toList.map fun entry => f entry.2).sum

theorem nodup_toList : t.toList.Nodup := by
  refine t.distinct_keys_toList.imp ?_
  rintro a b hab rfl
  simp at hab

theorem toList_perm_cons_erase {t : OrdMap κ β} {k : κ} {v : β} (h : t[k]? = some v) :
    t.toList.Perm ((k, v) :: (t.erase k).toList) := by
  have hfresh : (k, v) ∉ (t.erase k).toList := by
    rw [mem_toList, getElem?_erase, if_pos rfl]
    exact nofun
  refine (List.perm_ext_iff_of_nodup t.nodup_toList
    (List.nodup_cons.mpr ⟨hfresh, nodup_toList _⟩)).mpr ?_
  rintro ⟨k', v'⟩
  rw [List.mem_cons, mem_toList, mem_toList, getElem?_erase]
  by_cases hk : k = k'
  · subst hk
    simp [h, eq_comm]
  · rw [if_neg hk]
    refine ⟨.inr, fun hor => hor.resolve_left fun heq => hk ?_⟩
    exact (congrArg Prod.fst heq).symm

theorem size_erase_of_getElem? {t : OrdMap κ β} {k : κ} {v : β} (h : t[k]? = some v) :
    (t.erase k).size + 1 = t.size := by
  have hlength := (toList_perm_cons_erase h).length_eq
  simpa using hlength.symm

theorem size_insert_of_getElem? {t : OrdMap κ β} {k : κ} (h : t[k]? = none) (v : β) :
    (t.insert k v).size = t.size + 1 := by
  have hnone : t.contains k = false := (contains_eq_false_iff t).mpr h
  rw [Std.ExtTreeMap.size_insert, if_neg (by simp [hnone])]

theorem size_insert_of_mem {t : OrdMap κ β} {k : κ} {v : β} (h : t[k]? = some v) (v' : β) :
    (t.insert k v').size = t.size := by
  have hsome : t.contains k = true := by
    rw [Std.ExtTreeMap.contains_eq_isSome_getElem?, h]
    rfl
  rw [Std.ExtTreeMap.size_insert, if_pos hsome]

@[simp] theorem total_empty : total (∅ : OrdMap κ β) f = 0 := rfl

theorem total_erase (k : κ) : total (t.erase k) f + (t[k]?).elim 0 f = total t f := by
  cases h : t[k]? with
  | none =>
    have hsame : t.erase k = t := ext fun k' => by
      rw [getElem?_erase]
      split
      · next heq => rw [← heq, h]
      · rfl
    simp [hsame]
  | some v =>
    have hperm := ((toList_perm_cons_erase h).map fun entry => f entry.2).sum_eq
    simp only [List.map_cons, List.sum_cons] at hperm
    simp only [total, Option.elim_some]
    omega

theorem total_insert (k : κ) (v : β) :
    total (t.insert k v) f + (t[k]?).elim 0 f = total t f + f v := by
  have hsame : (t.insert k v).erase k = t.erase k := ext fun k' => by
    simp only [getElem?_erase, getElem?_insert]
    split <;> rfl
  have hinserted := total_erase (t.insert k v) f k
  have herased := total_erase t f k
  rw [hsame, getElem?_insert, if_pos rfl, Option.elim_some] at hinserted
  omega

end Totals

end OrdMap

end Rdlt.Lib
