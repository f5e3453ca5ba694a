/-
  Rdlt.Connector.Moves

  Unchanged flags moved by one map of ordinals after another.
-/

import Rdlt.Connector.Change

namespace Rdlt

namespace UnchangedFlags

/-- The map that moves flags by `first` and then by `second`. -/
def composed (first second : List (Option Nat)) : List (Option Nat) :=
  first.map fun target => target.bind fun target => second[target]?.join

theorem getElem?_composed {first second : List (Option Nat)} {ordinal target : Nat} :
    (composed first second)[ordinal]? = some (some target)
      ↔ ∃ middle, first[ordinal]? = some (some middle) ∧ second[middle]? = some (some target) := by
  simp [composed, Option.bind_eq_some_iff, Option.join_eq_some_iff]

/-- A bitmap as long as its last flag needs and no longer: no byte of it is past every flag. -/
def Tight (bitmap : Bytes) : Prop :=
  ∀ index < bitmap.length, ∃ ordinal, contains bitmap ordinal ∧ index ≤ ordinal / 8

theorem div_lt_length_of_contains {bitmap : Bytes} {ordinal : Nat}
    (h : contains bitmap ordinal) : ordinal / 8 < bitmap.length := by
  obtain ⟨byte, hbyte, -⟩ := (Option.any_eq_true ..).mp h
  exact (List.getElem?_eq_some_iff.mp hbyte).1

theorem length_flagged (out : Bytes) (target : Nat) :
    (flagged out target).length = max out.length (target / 8 + 1) := by
  simp only [flagged, List.length_modify, List.length_append, List.length_replicate]
  omega

theorem tight_flagged {out : Bytes} (h : Tight out) (target : Nat) :
    Tight (flagged out target) := by
  intro index hindex
  rw [length_flagged] at hindex
  by_cases hout : index < out.length
  · obtain ⟨ordinal, hflag, hle⟩ := h index hout
    exact ⟨ordinal, by rw [contains_flagged, hflag, Bool.true_or], hle⟩
  · exact ⟨target, by simp [contains_flagged], by omega⟩

theorem tight_remapRow (bitmap : Bytes) (targets : List (Option Nat)) :
    Tight (remapRow bitmap targets) := by
  refine List.foldlRecOn _ _ (fun index hindex => absurd hindex (Nat.not_lt_zero _)) ?_
  intro out h ordinal _
  cases targets[ordinal]?.join with
  | none => exact h
  | some target => exact tight_flagged h target

theorem byte_ext {left right : Byte} (h : ∀ bit < 8, left.test bit = right.test bit) :
    left = right := by
  refine Fin.ext (Nat.eq_of_testBit_eq fun bit => ?_)
  by_cases hbit : bit < 8
  · exact h bit hbit
  · have hpow : 2 ^ 8 ≤ 2 ^ bit := Nat.pow_le_pow_right (by omega) (by omega)
    rw [Nat.testBit_lt_two_pow (by omega), Nat.testBit_lt_two_pow (by omega)]

theorem Tight.length_le {left right : Bytes} (h : Tight left)
    (hflags : ∀ ordinal, contains left ordinal → contains right ordinal) :
    left.length ≤ right.length := by
  by_contra hlt
  obtain ⟨ordinal, hflag, hle⟩ := h right.length (by omega)
  have := div_lt_length_of_contains (hflags ordinal hflag)
  omega

/-- Bitmaps as long as their last flags need are told by what they flag. -/
theorem Tight.ext {left right : Bytes} (hleft : Tight left) (hright : Tight right)
    (hflags : ∀ ordinal, contains left ordinal = contains right ordinal) :
    left = right := by
  have hlength : left.length = right.length :=
    Nat.le_antisymm (hleft.length_le fun ordinal h => hflags ordinal ▸ h)
      (hright.length_le fun ordinal h => hflags ordinal ▸ h)
  refine List.ext_getElem hlength fun index hl hr => byte_ext fun bit hbit => ?_
  have hdiv : (index * 8 + bit) / 8 = index := by omega
  have hmod : (index * 8 + bit) % 8 = bit := by omega
  simpa [contains, hdiv, hmod, hl, hr] using hflags (index * 8 + bit)

theorem remapRow_remapRow (bitmap : Bytes) (first second : List (Option Nat)) :
    remapRow (remapRow bitmap first) second = remapRow bitmap (composed first second) := by
  refine Tight.ext (tight_remapRow _ _) (tight_remapRow _ _) fun target => Bool.eq_iff_iff.mpr ?_
  simp only [contains_remapRow, getElem?_composed]
  constructor
  · rintro ⟨middle, ⟨ordinal, hflag, hfirst⟩, hsecond⟩
    exact ⟨ordinal, hflag, middle, hfirst, hsecond⟩
  · rintro ⟨ordinal, hflag, middle, hfirst, hsecond⟩
    exact ⟨middle, ⟨ordinal, hflag, hfirst⟩, hsecond⟩

/-- Moving flags by one map and then by another moves them by the composed one, nulls staying
    null; a moved row flags exactly what the map moves its flags to, in a bitmap as long as its
    last flag needs. -/
theorem moves_of_flags_compose (flags : List (Option Bytes)) (first second : List (Option Nat)) :
    remapUnchanged (remapUnchanged flags first) second
        = remapUnchanged flags (composed first second) ∧
      List.Forall₂ (fun bitmap moved => (bitmap = none ↔ moved = none) ∧
          ∀ held ∈ bitmap, ∀ out ∈ moved, Tight out ∧ ∀ target,
            contains out target ↔ ∃ ordinal,
              contains held ordinal ∧ first[ordinal]? = some (some target))
        flags (remapUnchanged flags first) := by
  constructor
  · simp [remapUnchanged, Function.comp_def, remapRow_remapRow]
  · refine List.forall₂_map_right_iff.mpr (List.forall₂_same.mpr fun bitmap _ => ⟨by simp, ?_⟩)
    rintro held rfl out ⟨⟩
    exact ⟨tight_remapRow _ _, fun _ => contains_remapRow⟩

end UnchangedFlags

end Rdlt
