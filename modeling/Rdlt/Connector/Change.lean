/-
  Rdlt.Connector.Change

  What a change row does, and the flags of the columns an update left
  unchanged: a bitmap over field ordinals, bit `i % 8` of byte `i / 8` flagging
  the field at ordinal `i`.
-/

import Rdlt.Connector.Batch

namespace Rdlt

variable {bitmap : Bytes} {ordinal : Nat}

/-! ## Ops -/

inductive ChangeOp where
  | insert
  | update
  | delete
  | truncate
  deriving DecidableEq, Repr

namespace ChangeOp

def code : ChangeOp → Int
  | insert => 0
  | update => 1
  | delete => 2
  | truncate => 3

/-- The op an op column's value names. -/
def fromCode : Int → Option ChangeOp
  | 0 => some insert
  | 1 => some update
  | 2 => some delete
  | 3 => some truncate
  | _ => none

end ChangeOp

/-! ## Bits of a byte -/

def Byte.test (byte : Byte) (bit : Nat) : Bool := byte.val.testBit bit

def Byte.flag (byte : Byte) (bit : Nat) : Byte := Fin.ofNat 256 (byte.val ||| 2 ^ bit)

theorem Byte.test_flag (byte : Byte) {bit : Nat} (hbit : bit < 8) (other : Nat) :
    (byte.flag bit).test other = (byte.test other || decide (bit = other)) := by
  have hlt : byte.val ||| 2 ^ bit < 256 :=
    Nat.or_lt_two_pow (n := 8) byte.isLt (Nat.pow_lt_pow_right (by omega) hbit)
  unfold Byte.test Byte.flag
  rw [Fin.ofNat_eq_cast, Fin.val_natCast, Nat.mod_eq_of_lt hlt, Nat.testBit_or, Nat.testBit_two_pow]

@[simp] theorem Byte.test_zero (bit : Nat) : Byte.test 0 bit = false := by
  simp [Byte.test]

theorem Byte.ne_zero_of_test {byte : Byte} {bit : Nat} (h : byte.test bit) : byte ≠ 0 := by
  rintro rfl
  simp at h

/-! ## Unchanged flags -/

namespace UnchangedFlags

/-- Whether the field at `ordinal` is flagged unchanged; no field past the bitmap is. -/
def contains (bitmap : Bytes) (ordinal : Nat) : Bool :=
  (bitmap[ordinal / 8]?).any fun byte => byte.test (ordinal % 8)

def ordinalsAt (byte : Byte) (index : Nat) : List Nat :=
  ((List.range 8).filter fun bit => byte.test bit).map fun bit => index * 8 + bit

/-- The ordinals flagged unchanged, in ascending order. -/
def ordinals (bitmap : Bytes) : List Nat :=
  (bitmap.zipIdx.filter fun held => held.1 ≠ 0).flatMap fun held => ordinalsAt held.1 held.2

/-- The ordinals below `fields` flagged unchanged: only the bytes holding them are read. -/
def ordinalsBelow (bitmap : Bytes) (fields : Nat) : List Nat :=
  (ordinals (bitmap.take ((fields + 7) / 8))).takeWhile (· < fields)

end UnchangedFlags

def flagged (out : Bytes) (target : Nat) : Bytes :=
  let grown := out ++ List.replicate (target / 8 + 1 - out.length) 0
  grown.modify (target / 8) fun byte => byte.flag (target % 8)

/-- One row's flags over other fields: the field at ordinal `i` is flagged at `targets[i]`, or
    dropped where that is none or `i` is past `targets`. -/
def remapRow (bitmap : Bytes) (targets : List (Option Nat)) : Bytes :=
  (UnchangedFlags.ordinalsBelow bitmap targets.length).foldl
    (fun out ordinal => (targets[ordinal]?.join).elim out (flagged out)) []

/-- `flags` over other fields, row by row; a null row stays null. -/
def remapUnchanged (flags : List (Option Bytes)) (targets : List (Option Nat)) :
    List (Option Bytes) :=
  flags.map fun bitmap => bitmap.map fun bitmap => remapRow bitmap targets

/-! ## The ordinals a bitmap flags -/

namespace UnchangedFlags

theorem mem_ordinalsAt {byte : Byte} {index : Nat} :
    ordinal ∈ ordinalsAt byte index ↔ ordinal / 8 = index ∧ byte.test (ordinal % 8) := by
  simp only [ordinalsAt, List.mem_map, List.mem_filter, List.mem_range]
  constructor
  · rintro ⟨bit, ⟨hbit, htest⟩, rfl⟩
    have hdiv : (index * 8 + bit) / 8 = index := by omega
    have hmod : (index * 8 + bit) % 8 = bit := by omega
    exact ⟨hdiv, by rwa [hmod]⟩
  · rintro ⟨rfl, htest⟩
    exact ⟨ordinal % 8, ⟨Nat.mod_lt _ (by omega), htest⟩, by omega⟩

theorem mem_ordinals : ordinal ∈ ordinals bitmap ↔ contains bitmap ordinal := by
  simp only [ordinals, contains, List.mem_flatMap, List.mem_filter, mem_ordinalsAt, Prod.exists,
    List.mem_zipIdx_iff_getElem?, Option.any_eq_true]
  constructor
  · rintro ⟨byte, index, ⟨hget, -⟩, rfl, htest⟩
    exact ⟨byte, hget, htest⟩
  · rintro ⟨byte, hget, htest⟩
    exact ⟨byte, ordinal / 8, ⟨hget, by simpa using Byte.ne_zero_of_test htest⟩, rfl, htest⟩

theorem ordinals_pairwise (bitmap : Bytes) : (ordinals bitmap).Pairwise (· < ·) := by
  unfold ordinals
  rw [List.pairwise_flatMap]
  refine ⟨?_, ?_⟩
  · rintro ⟨byte, index⟩ -
    refine List.Pairwise.map _ ?_ (List.Pairwise.filter _ List.pairwise_lt_range)
    intro a b hab
    omega
  · have hindex : bitmap.zipIdx.Pairwise (fun a b => a.2 < b.2) := by
      rw [← List.pairwise_map (f := Prod.snd)]
      simp [List.pairwise_lt_range']
    refine (hindex.filter _).imp ?_
    intro a b hab x hx y hy
    have hxa := (mem_ordinalsAt.mp hx).1
    have hyb := (mem_ordinalsAt.mp hy).1
    omega

/-- In an ascending list, what is below a bound is a prefix. -/
theorem mem_takeWhile_lt {l : List Nat} (hl : l.Pairwise (· < ·)) {bound n : Nat} :
    n ∈ l.takeWhile (· < bound) ↔ n ∈ l ∧ n < bound := by
  induction l with
  | nil => simp
  | cons a l ih =>
    obtain ⟨ha, hl⟩ := List.pairwise_cons.mp hl
    by_cases hab : a < bound
    · simp only [List.takeWhile_cons, hab, decide_true, if_true, List.mem_cons, ih hl]
      constructor
      · rintro (rfl | ⟨hn, hlt⟩)
        · exact ⟨.inl rfl, hab⟩
        · exact ⟨.inr hn, hlt⟩
      · rintro ⟨rfl | hn, hlt⟩
        · exact .inl rfl
        · exact .inr ⟨hn, hlt⟩
    · have hnone : ∀ m ∈ a :: l, ¬ m < bound := by
        intro m hm
        rcases List.mem_cons.mp hm with rfl | hm
        · exact hab
        · exact fun hlt => hab (Nat.lt_trans (ha m hm) hlt)
      simp only [List.takeWhile_cons, hab, decide_false]
      exact ⟨fun h => by simp at h, fun ⟨hn, hlt⟩ => absurd hlt (hnone n hn)⟩

theorem mem_ordinalsBelow {fields : Nat} :
    ordinal ∈ ordinalsBelow bitmap fields ↔ contains bitmap ordinal ∧ ordinal < fields := by
  rw [ordinalsBelow, mem_takeWhile_lt (ordinals_pairwise _), mem_ordinals]
  refine and_congr_left fun hlt => ?_
  -- the byte of an ordinal below `fields` is one of those read
  have hread : ordinal / 8 < (fields + 7) / 8 := by omega
  rw [contains, contains, List.getElem?_take_of_lt hread]

end UnchangedFlags

/-! ## Moving flags -/

theorem contains_append_zeros (out : Bytes) (count ordinal : Nat) :
    UnchangedFlags.contains (out ++ List.replicate count 0) ordinal
      = UnchangedFlags.contains out ordinal := by
  unfold UnchangedFlags.contains
  by_cases hin : ordinal / 8 < out.length
  · rw [List.getElem?_append_left hin]
  · rw [List.getElem?_append_right (by omega), List.getElem?_eq_none (l := out) (by omega),
      List.getElem?_replicate]
    split <;> simp

theorem contains_flagged (out : Bytes) (target ordinal : Nat) :
    UnchangedFlags.contains (flagged out target) ordinal
      = (UnchangedFlags.contains out ordinal || decide (target = ordinal)) := by
  rw [← contains_append_zeros out (target / 8 + 1 - out.length) ordinal]
  have hheld :
      target / 8 < (out ++ List.replicate (target / 8 + 1 - out.length) (0 : Byte)).length := by
    simp only [List.length_append, List.length_replicate]
    omega
  simp only [flagged, UnchangedFlags.contains, List.getElem?_modify]
  generalize out ++ List.replicate (target / 8 + 1 - out.length) (0 : Byte) = grown at hheld
  by_cases hbyte : target / 8 = ordinal / 8
  · rw [← hbyte, List.getElem?_eq_getElem hheld]
    have hbit : target % 8 = ordinal % 8 ↔ target = ordinal := by omega
    simp [Byte.test_flag _ (Nat.mod_lt target (by omega : 0 < 8)), hbit]
  · have hne : target ≠ ordinal := fun h => hbyte (by rw [h])
    simp [hbyte, hne]

/-- A moved row flags exactly the fields its flags are moved to. -/
theorem contains_remapRow {targets : List (Option Nat)} {target : Nat} :
    UnchangedFlags.contains (remapRow bitmap targets) target
      ↔ ∃ ordinal, UnchangedFlags.contains bitmap ordinal ∧
          targets[ordinal]? = some (some target) := by
  have hfold : ∀ (ordinals : List Nat) (out : Bytes), UnchangedFlags.contains (ordinals.foldl
          (fun out ordinal => (targets[ordinal]?.join).elim out (flagged out)) out) target
        ↔ UnchangedFlags.contains out target ∨
          ∃ ordinal ∈ ordinals, targets[ordinal]? = some (some target) := by
    intro ordinals
    induction ordinals with
    | nil => simp
    | cons ordinal ordinals ih =>
      intro out
      rw [List.foldl_cons, ih]
      rcases hto : targets[ordinal]? with _ | _ | moved
      · simp [hto]
      · simp [hto]
      · simp only [hto, Option.join_some, Option.elim_some, contains_flagged, Bool.or_eq_true,
          decide_eq_true_eq, List.exists_mem_cons_iff, Option.some.injEq]
        rw [or_assoc]
  rw [remapRow, hfold]
  simp only [UnchangedFlags.mem_ordinalsBelow]
  constructor
  · rintro (hnil | ⟨ordinal, ⟨hflag, -⟩, hto⟩)
    · simp [UnchangedFlags.contains] at hnil
    · exact ⟨ordinal, hflag, hto⟩
  · rintro ⟨ordinal, hflag, hto⟩
    exact .inr ⟨ordinal, ⟨hflag, (List.getElem?_eq_some_iff.mp hto).1⟩, hto⟩

end Rdlt
