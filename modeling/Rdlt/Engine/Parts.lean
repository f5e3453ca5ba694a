/-
  Rdlt.Engine.Parts

  The parts what reads keep is divided into: a read that is not followed holds
  one whole while it reads, and followed reads draw on the rest together as they
  keep, as many as what they keep takes and never all.
-/

import Rdlt.Lib.Saturating

namespace Rdlt.Engine

open Lib (u64Max saturatingAdd)

/-! ## Parts and who holds them -/

/-- How many parts there are, and the bytes of one. -/
structure Parts where
  count : Nat
  bytes : Nat
  positive : 0 < count
  below : count < 2 ^ 32

/-- The parts no read holds, the reads waiting for one and those holding one, and what followed
    reads keep together with the permit they hold for it. -/
structure Sharing where
  free : Nat
  waiting : Nat
  whole : Nat
  kept : Nat
  held : Option Nat

/-- A draw that needed a part and found none followed reads may take. -/
structure Full where
  kept : Nat
  room : Nat

namespace Sharing

def parts (s : Sharing) : Nat := s.held.getD 0

/-- Parts given back: to the reads waiting first, each a whole one. -/
def freed (s : Sharing) (parts : Nat) : Sharing :=
  { s with
    free := s.free + (parts - s.waiting)
    waiting := s.waiting - parts
    whole := s.whole + min parts s.waiting }

end Sharing

namespace Parts

/-- The most parts followed reads hold together: all but one. -/
def most (parts : Parts) : Nat := parts.count - 1

/-- Parts: what `kept` bytes take. -/
def needed (parts : Parts) (kept : Nat) : Nat :=
  (kept + (max parts.bytes 1 - 1)) / max parts.bytes 1

def new (parts : Parts) : Sharing :=
  { free := parts.count, waiting := 0, whole := 0, kept := 0, held := none }

def tryTake (s : Sharing) : Sharing :=
  if 0 < s.free then { s with free := s.free - 1, whole := s.whole + 1 } else s

/-- A read that is not followed takes a whole part, or waits for one. -/
def take (s : Sharing) : Sharing :=
  if 0 < s.free then tryTake s else { s with waiting := s.waiting + 1 }

/-- Draws `bytes` more for what followed reads keep together. -/
def draw (parts : Parts) (s : Sharing) (bytes : Nat) : Except Full Unit × Sharing :=
  let kept := saturatingAdd s.kept bytes
  let needed := parts.needed kept
  if needed - s.parts = 0 then (.ok (), { s with kept })
  else
    let more := min (needed - s.parts) (2 ^ 32 - 1)
    if needed ≤ parts.most ∧ more ≤ s.free then
      (.ok (), { s with kept, free := s.free - more, held := some (s.parts + more) })
    else
      let may := min (s.parts + s.free) parts.most
      (.error { kept, room := min (may * parts.bytes) u64Max }, s)

/-- Gives back `bytes` followed reads kept, and the parts they no longer need. -/
def giveBack (parts : Parts) (s : Sharing) (bytes : Nat) : Sharing :=
  let kept := s.kept - bytes
  let surplus := s.parts - parts.needed kept
  ({ s with kept, held := s.held.map (· - surplus) } : Sharing).freed surplus

/-! ## Runs -/

/-- What a read does: a followed one draws or gives back, another takes a part, at once or waiting
    for it, stops waiting, or releases the part it holds. -/
inductive Use where
  | draw (bytes : Nat)
  | giveBack (bytes : Nat)
  | tryTake
  | take
  | cancel
  | release

/-- What is asked of a use: no more is given back than is kept, and a read that stops waiting or
    releases a part is one that did wait or held it. -/
def Admits (s : Sharing) : Use → Prop
  | .giveBack bytes => bytes ≤ s.kept
  | .cancel => 0 < s.waiting
  | .release => 0 < s.whole
  | _ => True

def after (parts : Parts) (s : Sharing) : Use → Sharing
  | .draw bytes => (parts.draw s bytes).2
  | .giveBack bytes => parts.giveBack s bytes
  | .tryTake => tryTake s
  | .take => take s
  | .cancel => { s with waiting := s.waiting - 1 }
  | .release => ({ s with whole := s.whole - 1 } : Sharing).freed 1

/-- The states uses lead to, in any order. -/
inductive Reached (parts : Parts) : Sharing → Prop
  | new : Reached parts parts.new
  | after (s : Sharing) (use : Use) :
      Reached parts s → Admits s use → Reached parts (parts.after s use)

/-! ## What holds of them -/

variable {parts : Parts} {s : Sharing}

/-- Bytes take the fewest parts that hold them. -/
theorem needed_le_iff {kept n : Nat} : parts.needed kept ≤ n ↔ kept ≤ n * max parts.bytes 1 := by
  have hpart : 0 < max parts.bytes 1 := by omega
  rw [needed, Nat.div_le_iff_le_mul_add_pred hpart, Nat.mul_comm]
  omega

theorem needed_mono {kept more : Nat} (h : kept ≤ more) : parts.needed kept ≤ parts.needed more :=
  needed_le_iff.mpr (h.trans (needed_le_iff.mp le_rfl))

structure Sound (parts : Parts) (s : Sharing) : Prop where
  exact : s.parts = parts.needed s.kept
  fits : s.kept ≤ u64Max
  most : s.parts ≤ parts.most
  all : s.parts + s.whole + s.free = parts.count

theorem Sound.tryTake (h : parts.Sound s) : parts.Sound (tryTake s) := by
  unfold Parts.tryTake
  split
  · have hall : s.held.getD 0 + s.whole + s.free = parts.count := h.all
    exact ⟨h.exact, h.fits, h.most, by simp only [Sharing.parts]; omega⟩
  · exact h

theorem Sound.parts_le (h : parts.Sound s) (bytes : Nat) :
    s.parts ≤ parts.needed (saturatingAdd s.kept bytes) :=
  h.exact ▸ needed_mono (le_min (Nat.le_add_right ..) h.fits)

/-- A draw either needs parts past all but one or past those free, and changes nothing, or takes
    those it needs. -/
theorem Sound.draw_cases (h : parts.Sound s) (bytes : Nat) {needed : Nat}
    (hneeded : parts.needed (saturatingAdd s.kept bytes) = needed) :
    (parts.most < needed ∨ s.parts + s.free < needed) ∧ (parts.draw s bytes).2 = s ∧
        (parts.draw s bytes).1.isOk = false ∨
      needed ≤ parts.most ∧ needed ≤ s.parts + s.free ∧ (parts.draw s bytes).1.isOk = true ∧
        ∃ held : Option Nat, held.getD 0 = needed ∧ (parts.draw s bytes).2 = { s with
          kept := saturatingAdd s.kept bytes, free := s.free - (needed - s.parts), held } := by
  have hgrows := hneeded ▸ h.parts_le bytes
  have hmost := h.most
  rw [draw, hneeded]
  by_cases hneeds : needed - s.parts = 0
  · rw [if_pos hneeds, hneeds]
    exact .inr ⟨by omega, by omega, rfl, s.held, by rw [← Sharing.parts]; omega, rfl⟩
  · rw [if_neg hneeds]
    by_cases hmay : needed ≤ parts.most ∧ needed - s.parts ≤ s.free
    · -- 32 bits count all the parts, so as many are asked for as are needed
      have hmore : min (needed - s.parts) (2 ^ 32 - 1) = needed - s.parts := by
        have := parts.below
        have : parts.most < parts.count := Nat.sub_lt parts.positive one_pos
        omega
      rw [hmore, if_pos hmay]
      exact .inr ⟨hmay.1, by omega, rfl, _, by rw [Option.getD_some]; omega, rfl⟩
    · rw [if_neg (by have := parts.below; unfold Parts.most at *; omega)]
      exact .inl ⟨by omega, rfl, rfl⟩

theorem Sound.draw (h : parts.Sound s) (bytes : Nat) : parts.Sound (parts.draw s bytes).2 := by
  have hall := h.all
  have hgrows := h.parts_le bytes
  rcases h.draw_cases bytes rfl with ⟨-, hsame, -⟩ | ⟨hmost, hfree, -, held, hheld, hafter⟩
  · rw [hsame]
    exact h
  · rw [hafter]
    exact ⟨hheld, min_le_right .., hheld ▸ hmost, by simp only [Sharing.parts, hheld] at *; omega⟩

theorem Sound.freed {n : Nat} (hexact : s.parts = parts.needed s.kept) (hfits : s.kept ≤ u64Max)
    (hmost : s.parts ≤ parts.most) (hall : s.parts + s.whole + s.free + n = parts.count) :
    parts.Sound (s.freed n) :=
  ⟨hexact, hfits, hmost, by simp only [Sharing.parts, Sharing.freed] at hall ⊢; omega⟩

theorem Sound.giveBack (h : parts.Sound s) (bytes : Nat) :
    parts.Sound (parts.giveBack s bytes) := by
  have hless : parts.needed (s.kept - bytes) ≤ s.parts := h.exact ▸ needed_mono (Nat.sub_le _ _)
  have hheld : (s.held.map (· - (s.parts - parts.needed (s.kept - bytes)))).getD 0
      = s.parts - (s.parts - parts.needed (s.kept - bytes)) := by
    unfold Sharing.parts
    cases s.held <;> simp
  have hall := h.all
  have hmost := h.most
  refine .freed (hheld.trans (Nat.sub_sub_self hless)) ((Nat.sub_le _ _).trans h.fits)
    (hheld.trans_le (by omega)) ?_
  rw [Sharing.parts, hheld]
  dsimp only
  omega

theorem Sound.after (h : parts.Sound s) {use : Use} (hadmits : Admits s use) :
    parts.Sound (parts.after s use) := by
  cases use with
  | draw bytes => exact h.draw bytes
  | giveBack bytes => exact h.giveBack bytes
  | tryTake => exact h.tryTake
  | take =>
    rw [Parts.after, take]
    split
    · exact h.tryTake
    · exact ⟨h.exact, h.fits, h.most, h.all⟩
  | cancel => exact ⟨h.exact, h.fits, h.most, h.all⟩
  | release =>
    have hall : s.held.getD 0 + s.whole + s.free = parts.count := h.all
    have hwhole : 0 < s.whole := hadmits
    refine .freed h.exact h.fits h.most ?_
    dsimp only [Sharing.parts]
    omega

theorem Reached.sound (h : parts.Reached s) : parts.Sound s := by
  induction h with
  | new =>
    refine ⟨?_, Nat.zero_le _, Nat.zero_le _, by simp [Parts.new, Sharing.parts]⟩
    exact (Nat.le_zero.mp (needed_le_iff.mpr (Nat.zero_le _))).symm
  | after s use _ hadmits ih => exact ih.after hadmits

end Parts

end Rdlt.Engine
