/-
  Rdlt.Connector.Segments

  Adding a segment to a set of segments: the ranges stay sorted, disjoint and
  apart, and the set holds the segment and what it held. The code compares with
  the id after another, saturating at the greatest id, past which no id lies.
-/

import Rdlt.Connector.Commit

namespace Rdlt.SegmentSet

variable {range : SegmentRange} {rest ranges : List SegmentRange}

/-! ## Insertion -/

variable (set : SegmentSet) (id : SegmentId)

/-- A range widened to `wider`, and the ranges past it: the next is merged where the two touch. -/
def absorbed (wider : SegmentRange) : List SegmentRange → List SegmentRange
  | [] => [wider]
  | next :: rest =>
    if next.first ≤ wider.last + 1 then ⟨wider.first, next.last⟩ :: rest
    else wider :: next :: rest

/-- `ranges`, none of which ends before `id` and apart from it, with `id`: merged with the ranges
    it touches. -/
def joined (id : SegmentId) : List SegmentRange → List SegmentRange
  | [] => [⟨id, id⟩]
  | range :: rest =>
    if range.first ≤ id + 1 then absorbed ⟨min range.first id, max range.last id⟩ rest
    else ⟨id, id⟩ :: range :: rest

def inserted (ranges : List SegmentRange) (id : SegmentId) : List SegmentRange :=
  let apart := fun range : SegmentRange => decide (range.last + 1 < id)
  ranges.takeWhile apart ++ joined id (ranges.dropWhile apart)

/-! ## What the ranges hold -/

def Holds (ranges : List SegmentRange) (id : SegmentId) : Prop :=
  ∃ range ∈ ranges, range.first ≤ id ∧ id ≤ range.last

/-- Ranges are runs, in order and apart. -/
structure Apart (ranges : List SegmentRange) : Prop where
  runs : ∀ range ∈ ranges, range.first ≤ range.last
  ordered : ranges.Pairwise fun left right => left.last + 1 < right.first

theorem holds_cons {id : SegmentId} :
    Holds (range :: rest) id ↔ (range.first ≤ id ∧ id ≤ range.last) ∨ Holds rest id := by
  simp [Holds]

theorem apart_cons :
    Apart (range :: rest) ↔ range.first ≤ range.last ∧
    (∀ next ∈ rest, range.last + 1 < next.first) ∧
      Apart rest := by
  constructor
  · rintro ⟨hruns, hordered⟩
    obtain ⟨hrun, hruns⟩ := List.forall_mem_cons.mp hruns
    obtain ⟨hpast, hordered⟩ := List.pairwise_cons.mp hordered
    exact ⟨hrun, hpast, hruns, hordered⟩
  · rintro ⟨hrun, hpast, hrest⟩
    exact ⟨List.forall_mem_cons.mpr ⟨hrun, hrest.runs⟩,
      List.pairwise_cons.mpr ⟨hpast, hrest.ordered⟩⟩

/-- Widening a range to touch `id` keeps the ranges apart and adds what the range was widened by. -/
theorem apart_absorbed (wider : SegmentRange) (hrun : wider.first ≤ wider.last) (hrest : Apart rest)
    (hpast : ∀ next ∈ rest, wider.last ≤ next.first) : Apart (absorbed wider rest) ∧
      (∀ range ∈ absorbed wider rest, wider.first ≤ range.first) ∧
      ∀ other, Holds (absorbed wider rest) other
        ↔ (wider.first ≤ other ∧ other ≤ wider.last) ∨ Holds rest other := by
  cases rest with
  | nil =>
    refine ⟨apart_cons.mpr ⟨hrun, by simp, hrest⟩, by simp [absorbed], fun other => ?_⟩
    rw [absorbed, holds_cons]
  | cons next rest =>
    obtain ⟨hnext, hnextpast, htail⟩ := apart_cons.mp hrest
    have htouch := hpast next (by simp)
    have hlater : ∀ other ∈ rest, wider.first ≤ other.first := fun other hother => by
      have := hnextpast other hother
      lia
    rw [absorbed]
    split
    · refine ⟨apart_cons.mpr ⟨by lia, hnextpast, htail⟩,
        List.forall_mem_cons.mpr ⟨le_rfl, hlater⟩, fun other => ?_⟩
      rw [holds_cons, holds_cons]
      lia
    · refine ⟨apart_cons.mpr ⟨hrun, List.forall_mem_cons.mpr ⟨by lia, fun other hother => ?_⟩,
        hrest⟩, List.forall_mem_cons.mpr ⟨le_rfl, List.forall_mem_cons.mpr ⟨by lia, hlater⟩⟩,
        fun other => ?_⟩
      · have := hnextpast other hother
        lia
      · rw [holds_cons]

/-- Joining `id` to ranges keeps them apart and past what both lie past, and adds `id` alone. -/
theorem apart_joined {id : SegmentId} (h : Apart ranges)
    (hnear : ∀ range ∈ ranges, id ≤ range.last + 1) : Apart (joined id ranges) ∧
      (∀ bound, bound < id → (∀ range ∈ ranges, bound < range.first) →
        ∀ range ∈ joined id ranges, bound < range.first) ∧
      ∀ other, Holds (joined id ranges) other ↔ other = id ∨ Holds ranges other := by
  cases ranges with
  | nil =>
    refine ⟨apart_cons.mpr ⟨le_rfl, by simp, h⟩, by simp [joined], fun other => ?_⟩
    rw [joined, holds_cons]
    lia
  | cons range rest =>
    obtain ⟨hrun, hpast, hrest⟩ := apart_cons.mp h
    have hrange := hnear range (by simp)
    rw [joined]
    split
    · have hwider : ∀ next ∈ rest, max range.last id ≤ next.first := fun next hnext => by
        have := hpast next hnext
        lia
      obtain ⟨hapart, hfirst, hholds⟩ := apart_absorbed
        ⟨min range.first id, max range.last id⟩ (by simp only; lia) hrest hwider
      refine ⟨hapart, fun bound hid hranges other hother => ?_, fun other => ?_⟩
      · have := hranges range (by simp)
        have := hfirst other hother
        lia
      · rw [hholds other, holds_cons]
        lia
    · refine ⟨apart_cons.mpr ⟨le_rfl, List.forall_mem_cons.mpr ⟨by lia, fun next hnext => ?_⟩, h⟩,
        fun bound hid hranges => List.forall_mem_cons.mpr ⟨hid, hranges⟩, fun other => ?_⟩
      · have := hpast next hnext
        lia
      · rw [holds_cons]
        lia

/-! ## The set -/

theorem apart_inserted (h : Apart ranges) (id : SegmentId) : Apart (inserted ranges id) ∧
      (∀ bound, bound < id → (∀ range ∈ ranges, bound < range.first) →
        ∀ range ∈ inserted ranges id, bound < range.first) ∧
      ∀ other, Holds (inserted ranges id) other ↔ other = id ∨ Holds ranges other := by
  induction ranges with
  | nil => exact apart_joined h (by simp)
  | cons range rest ih =>
    obtain ⟨hrun, hpast, hrest⟩ := apart_cons.mp h
    obtain ⟨hapart, hfirst, hholds⟩ := ih hrest
    by_cases hbefore : range.last + 1 < id
    · have hcons : inserted (range :: rest) id = range :: inserted rest id := by
        simp [inserted, hbefore]
      rw [hcons]
      refine ⟨apart_cons.mpr ⟨hrun, hfirst _ hbefore hpast, hapart⟩,
        fun bound hid hranges => ?_, fun other => ?_⟩
      · obtain ⟨hrange, hranges⟩ := List.forall_mem_cons.mp hranges
        exact List.forall_mem_cons.mpr ⟨hrange, hfirst bound hid hranges⟩
      · rw [holds_cons, holds_cons, hholds other]
        exact or_left_comm
    · have hwhole : inserted (range :: rest) id = joined id (range :: rest) := by
        simp [inserted, hbefore]
      rw [hwhole]
      refine apart_joined h (List.forall_mem_cons.mpr ⟨by lia, fun other hother => ?_⟩)
      have := hpast other hother
      have := hrest.runs other hother
      lia

theorem apart : Apart set.ranges := ⟨set.runs, set.ordered⟩

/-- Adds `id`, merging it with neighbouring ranges. -/
def insert (set : SegmentSet) (id : SegmentId) : SegmentSet where
  ranges := inserted set.ranges id
  runs := (apart_inserted set.apart id).1.runs
  ordered := (apart_inserted set.apart id).1.ordered

theorem holds_iff (h : Apart ranges) (id : SegmentId) :
    ((ranges.dropWhile fun range => range.last < id).head?.any fun range => range.first ≤ id) = true
      ↔ Holds ranges id := by
  induction ranges with
  | nil => simp [Holds]
  | cons range rest ih =>
    obtain ⟨hrun, hpast, hrest⟩ := apart_cons.mp h
    rw [holds_cons, List.dropWhile_cons]
    by_cases hbefore : range.last < id
    · rw [if_pos (by simpa using hbefore), ih hrest]
      exact ⟨.inr, fun h => h.resolve_left fun held => by lia⟩
    · rw [if_neg (by simpa using hbefore)]
      have hnone : ¬ Holds rest id := by
        rintro ⟨other, hother, hheld⟩
        have := hpast other hother
        lia
      simp only [List.head?_cons, Option.any_some, decide_eq_true_eq, hnone, or_false]
      lia

theorem contains_iff : set.contains id = true ↔ Holds set.ranges id := holds_iff set.apart id

@[simp] theorem contains_new : new.contains id = false := rfl

theorem contains_insert (id other : SegmentId) :
    (set.insert id).contains other = true ↔ other = id ∨ set.contains other = true := by
  rw [contains_iff, contains_iff]
  exact (apart_inserted set.apart id).2.2 other

end Rdlt.SegmentSet
