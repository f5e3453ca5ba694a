/-
  Rdlt.Engine.Discards

  What a schema policy discarded of a segment, by table, column and reason. As
  many columns are kept as a report lists; the rows and values of the rest are
  counted together.
-/

import Rdlt.Lib.Saturating
import Rdlt.Lib.Last

namespace Rdlt.Engine

open Lib

/-! ## What is discarded -/

/-- Why a schema policy discarded a value, or a row holding one. -/
inductive DiscardReason where
  /-- The value would have changed its table's schema. -/
  | schemaChange
  /-- Its column cannot hold the value whatever its schema. -/
  | outOfRange
  deriving DecidableEq, Repr

def DiscardReason.rank : DiscardReason → Nat
  | schemaChange => 0
  | outOfRange => 1

/-- A table's incoming column and why its values were discarded. -/
structure DiscardKey where
  table : String
  column : String
  reason : DiscardReason
  deriving Repr

namespace DiscardKey

/-- Keys are in the order of their tables, then of their columns, then of their reasons. -/
def ordered (key : DiscardKey) : String ×ₗ String ×ₗ Nat :=
  toLex (key.table, toLex (key.column, key.reason.rank))

theorem ordered_injective : Function.Injective ordered := by
  rintro ⟨table, column, reason⟩ ⟨table', column', reason'⟩ h
  obtain ⟨rfl, h⟩ := Prod.mk.inj h
  obtain ⟨rfl, h⟩ := Prod.mk.inj h
  cases reason <;> cases reason' <;> first | rfl | cases h

instance linearOrder : LinearOrder DiscardKey := LinearOrder.lift' ordered ordered_injective

instance transCmp : Std.TransCmp (@compare DiscardKey LinearOrder.toOrd) := inferInstance

end DiscardKey

structure Discarded where
  rows : Nat := 0
  values : Nat := 0
  deriving DecidableEq, Repr

def Discarded.add (left right : Discarded) : Discarded where
  rows := saturatingAdd left.rows right.rows
  values := saturatingAdd left.values right.values

/-- How many entries a list in a report's discards names: the rest are counted. -/
def reportedListed : Nat := 128

/-- What a segment's schema policy discarded, by table, column and reason: at most
    `reportedListed` kept, the rows and values of the rest counted. -/
structure ColumnDiscards where
  kept : OrdMap DiscardKey Discarded := ∅
  unlisted : Discarded := {}
  /-- What it counts past the columns it keeps it counts only once it keeps some. -/
  some_kept : kept.isEmpty = true → unlisted = {} := by exact fun _ => rfl
  deriving DecidableEq, Repr

namespace ColumnDiscards

section

variable (discards : ColumnDiscards) (key : DiscardKey)

def empty : ColumnDiscards := {}

def isEmpty (discards : ColumnDiscards) : Bool := discards.kept.isEmpty

/-- Whether it names the column `key`, or has room to. -/
def lists : Prop :=
  discards.kept.size < reportedListed ∨ key ∈ discards.kept

instance (discards : ColumnDiscards) (key : DiscardKey) : Decidable (discards.lists key) :=
  inferInstanceAs (Decidable (_ ∨ _))

theorem isEmpty_of_not_lists {discards : ColumnDiscards} {key : DiscardKey}
    (h : ¬ discards.lists key) : discards.isEmpty = false := by
  rw [Bool.eq_false_iff]
  intro hnone
  have hnone := Std.ExtTreeMap.isEmpty_iff.mp hnone
  simp [lists, hnone, reportedListed] at h

/-- Counts `counts` of a table's incoming column, for a reason. -/
def add (discards : ColumnDiscards) (key : DiscardKey) (counts : Discarded) : ColumnDiscards :=
  if h : discards.lists key then
    { kept := discards.kept.insert key ((discards.kept.getD key {}).add counts)
      unlisted := discards.unlisted
      some_kept := by simp }
  else
    { kept := discards.kept
      unlisted := discards.unlisted.add counts
      some_kept := fun hnone => absurd hnone (Bool.eq_false_iff.mp (isEmpty_of_not_lists h)) }

def addAll (columns : List (DiscardKey × Discarded)) : ColumnDiscards :=
  columns.foldl (fun discards entry => discards.add entry.1 entry.2) discards

theorem isEmpty_add (counts : Discarded) : (discards.add key counts).isEmpty = false := by
  unfold add
  split
  · simp [isEmpty]
  · next h => exact isEmpty_of_not_lists h

theorem isEmpty_addAll (columns : List (DiscardKey × Discarded))
    (h : (discards.addAll columns).isEmpty = true) : columns = [] := by
  rcases columns.eq_nil_or_concat with hnil | ⟨earlier, last, rfl⟩
  · exact hnil
  · rw [addAll, List.concat_eq_append, List.foldl_append] at h
    rw [List.foldl_cons, List.foldl_nil, isEmpty_add] at h
    cases h

def absorb (discards other : ColumnDiscards) : ColumnDiscards :=
  let added := discards.addAll other.kept.toList
  { kept := added.kept
    unlisted := added.unlisted.add other.unlisted
    some_kept := by
      intro hnone
      have hother : other.kept.isEmpty = true := by
        rw [← Std.ExtTreeMap.isEmpty_toList, isEmpty_addAll discards _ hnone]
        rfl
      rw [added.some_kept hnone, other.some_kept hother]
      rfl }

/-! ## What it adds up to -/

/-- What `f` of everything it counts adds up to, of the columns it keeps and the rest. -/
def counted (f : Discarded → Nat) (discards : ColumnDiscards) : Nat :=
  discards.kept.total f + f discards.unlisted

def column (discards : ColumnDiscards) : Discarded := discards.kept.getD key {}

end

section Counting

variable {f : Discarded → Nat} (hf : Tally {} Discarded.add f)

include hf

variable (discards : ColumnDiscards) (columns : List (DiscardKey × Discarded)) (key : DiscardKey)

theorem column_elim : f (discards.column key) = (discards.kept[key]?).elim 0 f := by
  rw [column, Std.ExtTreeMap.getD_eq_getD_getElem?]
  cases discards.kept[key]? with
  | none => exact hf.zero
  | some counts => rfl

theorem counted_add (counts : Discarded) (hfits : discards.counted f + f counts ≤ u64Max) :
    (discards.add key counts).counted f = discards.counted f + f counts := by
  have hinsert := discards.kept.total_insert f key ((discards.column key).add counts)
  have hcolumn := column_elim hf discards key
  have hpart := discards.kept.total_erase f key
  unfold counted at hfits ⊢
  unfold add
  split
  · rw [hf.add (by omega)] at hinsert
    simp only [column] at hinsert hcolumn
    simp only
    omega
  · rw [hf.add (by omega)]
    simp only
    omega

theorem counted_addAll
    (hfits : discards.counted f + (columns.map fun entry => f entry.2).sum ≤ u64Max) :
    (discards.addAll columns).counted f
      = discards.counted f + (columns.map fun entry => f entry.2).sum := by
  induction columns generalizing discards with
  | nil => simp [addAll]
  | cons entry columns ih =>
    simp only [List.map_cons, List.sum_cons] at hfits ⊢
    have hentry := counted_add hf discards entry.1 entry.2 (by omega)
    have hrest := ih (discards.add entry.1 entry.2) (by omega)
    rw [addAll] at hrest ⊢
    rw [List.foldl_cons, hrest]
    omega

theorem tally_counted : Tally {} absorb (counted f) where
  zero := by simp [counted, hf.zero]
  add := by
    intro discards other hfits
    have hfits' : discards.counted f + (other.kept.total f + f other.unlisted) ≤ u64Max := hfits
    have hadded := counted_addAll hf discards other.kept.toList
      (show discards.counted f + other.kept.total f ≤ _ by omega)
    have hadded' : (discards.addAll other.kept.toList).kept.total f
        + f (discards.addAll other.kept.toList).unlisted
        = discards.counted f + other.kept.total f := hadded
    show (discards.addAll other.kept.toList).kept.total f
      + f ((discards.addAll other.kept.toList).unlisted.add other.unlisted)
      = discards.counted f + (other.kept.total f + f other.unlisted)
    rw [hf.add (by omega)]
    omega

theorem column_le_counted : f (discards.column key) ≤ discards.counted f := by
  have hcolumn := column_elim hf discards key
  have hpart := discards.kept.total_erase f key
  unfold counted
  omega

/-- Where nothing it counts is left unlisted, a column counted is counted under its own name. -/
theorem column_add (key other : DiscardKey) (counts : Discarded)
    (hfits : discards.counted f + f counts ≤ u64Max)
    (hlisted : f (discards.add key counts).unlisted = 0) :
    f discards.unlisted = 0 ∧ f ((discards.add key counts).column other)
      = f (discards.column other) + if key = other then f counts else 0 := by
  have hcolumn := column_le_counted hf discards key
  have hunlisted : f discards.unlisted ≤ discards.counted f := Nat.le_add_left ..
  unfold add at hlisted ⊢
  split at hlisted
  · next h =>
      refine ⟨hlisted, ?_⟩
      rw [dif_pos h]
      simp only [column, Std.ExtTreeMap.getD_eq_getD_getElem?, OrdMap.getElem?_insert]
      split
      · rename_i heq
        subst heq
        have hsum := hf.add (show f (discards.column key) + f counts ≤ _ by omega)
        simpa [column, Std.ExtTreeMap.getD_eq_getD_getElem?] using hsum
      · rfl
  · rename_i h
    rw [hf.add (by omega)] at hlisted
    rw [dif_neg h]
    refine ⟨by omega, ?_⟩
    have hnone : f counts = 0 := by omega
    simp [column, hnone]

theorem column_addAll (other : DiscardKey)
    (hfits : discards.counted f + (columns.map fun entry => f entry.2).sum ≤ u64Max)
    (hlisted : f (discards.addAll columns).unlisted = 0) :
    f discards.unlisted = 0 ∧ f ((discards.addAll columns).column other)
      = f (discards.column other)
        + ((columns.filter (·.1 = other)).map fun entry => f entry.2).sum := by
  induction columns generalizing discards with
  | nil => simpa [addAll] using hlisted
  | cons entry columns ih =>
    simp only [List.map_cons, List.sum_cons] at hfits
    have hentry := counted_add hf discards entry.1 entry.2 (by omega)
    obtain ⟨hlater, hrest⟩ := ih (discards.add entry.1 entry.2) (by omega) hlisted
    obtain ⟨hunlisted, hcolumn⟩ := column_add hf discards entry.1 other entry.2 (by omega) hlater
    refine ⟨hunlisted, ?_⟩
    rw [show discards.addAll (entry :: columns) = (discards.add entry.1 entry.2).addAll columns
      from rfl, hrest, hcolumn, List.filter_cons]
    by_cases hkey : entry.1 = other
    · simp [hkey, Nat.add_assoc]
    · simp [hkey]

/-- Where nothing absorbed is left unlisted, discards add up column by column. -/
theorem column_absorb (discards other : ColumnDiscards) (key : DiscardKey)
    (hfits : discards.counted f + other.counted f ≤ u64Max)
    (hlisted : f (discards.absorb other).unlisted = 0) :
    f discards.unlisted = 0 ∧ f other.unlisted = 0 ∧
      f ((discards.absorb other).column key) = f (discards.column key) + f (other.column key) := by
  have hfits' : discards.counted f + (other.kept.total f + f other.unlisted) ≤ u64Max := hfits
  have hadded := counted_addAll hf discards other.kept.toList
    (show discards.counted f + other.kept.total f ≤ _ by omega)
  have hunlisted : f (discards.addAll other.kept.toList).unlisted
      ≤ discards.counted f + other.kept.total f := by
    rw [show other.kept.total f = (other.kept.toList.map fun entry => f entry.2).sum from rfl,
      ← hadded]
    exact Nat.le_add_left ..
  have hsum : f (discards.addAll other.kept.toList).unlisted + f other.unlisted = 0 := by
    rw [← hf.add (by omega)]
    exact hlisted
  obtain ⟨hdiscards, hcolumn⟩ := column_addAll hf discards other.kept.toList key
    (show discards.counted f + other.kept.total f ≤ _ by omega) (by omega)
  refine ⟨hdiscards, by omega, ?_⟩
  rw [show (discards.absorb other).column key = (discards.addAll other.kept.toList).column key
    from rfl, hcolumn, toList_filter_key, column_elim hf other key]
  cases other.kept[key]? <;> simp

end Counting

theorem tally_rows : Tally {} Discarded.add Discarded.rows := ⟨rfl, saturatingAdd_of_le⟩

theorem tally_values : Tally {} Discarded.add Discarded.values := ⟨rfl, saturatingAdd_of_le⟩

end ColumnDiscards

end Rdlt.Engine
