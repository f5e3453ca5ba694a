/-
  Rdlt.Connector.SegmentWords

  Sets of segments over the ids of 64 bits, as the code computes them: the id
  after another saturates at the greatest, past which no id lies, so inserting
  is the same as over all numbers. A set's ranges are its one form: sets that
  hold the same ids are equal, and ranges read back are checked for that form.
-/

import Rdlt.Connector.Segments
import Rdlt.Lib.Saturating

namespace Rdlt.SegmentSet

open Lib (u64Max saturatingAdd)

variable {range : SegmentRange} {rest ranges others : List SegmentRange} {first id : SegmentId}

/-! ## Insertion -/

def following (id : SegmentId) : SegmentId := saturatingAdd id 1

/-- `absorbed`, as the code compares ids. -/
def absorbedWords (wider : SegmentRange) : List SegmentRange → List SegmentRange
  | [] => [wider]
  | next :: rest =>
    if next.first ≤ following wider.last then ⟨wider.first, next.last⟩ :: rest
    else wider :: next :: rest

def joinedWords (id : SegmentId) : List SegmentRange → List SegmentRange
  | [] => [⟨id, id⟩]
  | range :: rest =>
    if range.first ≤ following id then absorbedWords ⟨min range.first id, max range.last id⟩ rest
    else ⟨id, id⟩ :: range :: rest

def insertedWords (ranges : List SegmentRange) (id : SegmentId) : List SegmentRange :=
  let apart := fun range : SegmentRange => decide (following range.last < id)
  ranges.takeWhile apart ++ joinedWords id (ranges.dropWhile apart)

def Words (ranges : List SegmentRange) : Prop :=
  ∀ range ∈ ranges, range.first ≤ u64Max ∧ range.last ≤ u64Max

theorem le_following_iff (h : first ≤ u64Max) : first ≤ following id ↔ first ≤ id + 1 := by
  simp only [following, saturatingAdd]
  lia

theorem following_lt_iff (id : SegmentId) (h : first ≤ u64Max) :
    following id < first ↔ id + 1 < first := by
  simp only [following, saturatingAdd]
  lia

theorem absorbedWords_eq (wider : SegmentRange) (h : Words ranges) :
    absorbedWords wider ranges = absorbed wider ranges := by
  cases ranges with
  | nil => rfl
  | cons next rest => simp only [absorbedWords, absorbed, le_following_iff (h next (by simp)).1]

theorem joinedWords_eq (id : SegmentId) (h : Words ranges) :
    joinedWords id ranges = joined id ranges := by
  cases ranges with
  | nil => rfl
  | cons range rest =>
    obtain ⟨hrange, hrest⟩ := List.forall_mem_cons.mp h
    simp only [joinedWords, joined, le_following_iff hrange.1, absorbedWords_eq _ hrest]

/-- Saturating changes nothing: no id lies past the greatest. -/
theorem insertedWords_eq (h : Words ranges) (hid : id ≤ u64Max) :
    insertedWords ranges id = inserted ranges id := by
  simp only [insertedWords, inserted, following_lt_iff _ hid]
  rw [joinedWords_eq]
  intro range hrange
  exact h range (List.dropWhile_sublist _ |>.subset hrange)

theorem words_inserted (happart : Apart ranges) (h : Words ranges) (hid : id ≤ u64Max) :
    Words (inserted ranges id) := by
  obtain ⟨hform, -, hholds⟩ := apart_inserted happart id
  intro range hrange
  have hrun := hform.runs range hrange
  suffices range.last ≤ u64Max from ⟨hrun.trans this, this⟩
  obtain heq | ⟨other, hother, -, hlast⟩ := (hholds range.last).mp ⟨range, hrange, hrun, le_rfl⟩
  · exact heq ▸ hid
  · exact hlast.trans (h other hother).2

/-! ## One form -/

theorem not_holds_past (h : Apart (range :: rest)) (id : SegmentId) (hid : id ≤ range.last + 1) :
    ¬ Holds rest id := by
  rintro ⟨other, hother, hfirst, -⟩
  have := (apart_cons.mp h).2.1 other hother
  lia

theorem eq_of_holds (h : Apart ranges) (h' : Apart others)
    (heq : ∀ id, Holds ranges id ↔ Holds others id) : ranges = others := by
  induction ranges generalizing others with
  | nil =>
    cases others with
    | nil => rfl
    | cons other rest =>
      have hheld := (heq other.first).mpr (holds_cons.mpr (.inl ⟨le_rfl, (apart_cons.mp h').1⟩))
      simp [Holds] at hheld
  | cons range rest ih =>
    cases others with
    | nil =>
      have hheld := (heq range.first).mp (holds_cons.mpr (.inl ⟨le_rfl, (apart_cons.mp h).1⟩))
      simp [Holds] at hheld
    | cons other rest' =>
      obtain ⟨hrun, hpast, hrest⟩ := apart_cons.mp h
      obtain ⟨hrun', hpast', hrest'⟩ := apart_cons.mp h'
      simp only [holds_cons] at heq
      -- Each range's first and last ids are held by the other list, and the ids just past are not.
      have hnot := fun id (hid : id ≤ range.last + 1) => not_holds_past h id hid
      have hnot' := fun id (hid : id ≤ other.last + 1) => not_holds_past h' id hid
      have hfirst : range.first = other.first := by
        have := heq range.first
        have := heq other.first
        grind
      have hlast : range.last = other.last := by
        have := heq (range.last + 1)
        have := heq (other.last + 1)
        grind
      obtain ⟨first, last⟩ := range
      obtain ⟨first', last'⟩ := other
      obtain ⟨rfl, rfl⟩ : first = first' ∧ last = last' := ⟨hfirst, hlast⟩
      rw [ih hrest hrest' fun id => ?_]
      have := heq id
      grind

/-! ## The set -/

abbrev Word := Fin (2 ^ 64)

theorem word_le (id : Word) : id.val ≤ u64Max := Nat.le_pred_of_lt id.isLt

structure OfWords extends SegmentSet where
  words : Words ranges

namespace OfWords

def new : OfWords := { SegmentSet.new with words := by simp [Words, SegmentSet.new] }

def insert (set : OfWords) (id : Word) : OfWords where
  ranges := insertedWords set.ranges id
  runs := insertedWords_eq set.words (word_le id) ▸ (set.toSegmentSet.insert id).runs
  ordered := insertedWords_eq set.words (word_le id) ▸ (set.toSegmentSet.insert id).ordered
  words := insertedWords_eq set.words (word_le id) ▸ words_inserted set.apart set.words (word_le id)

def fromIter (ids : List Word) : OfWords := ids.foldl insert new

theorem toSegmentSet_insert (set : OfWords) (id : Word) :
    (set.insert id).toSegmentSet = set.toSegmentSet.insert id := by
  simp only [insert, SegmentSet.insert, insertedWords_eq set.words (word_le id)]

theorem contains_foldl (ids : List Word) (set : OfWords) (id : Word) :
    (ids.foldl insert set).contains id = true ↔ id ∈ ids ∨ set.contains id = true := by
  induction ids generalizing set with
  | nil => simp
  | cons first ids ih =>
    rw [List.foldl_cons, ih, toSegmentSet_insert, contains_insert, List.mem_cons, Fin.val_inj]
    tauto

theorem le_of_contains {set : OfWords} (h : set.contains id = true) : id ≤ u64Max := by
  obtain ⟨range, hrange, -, hlast⟩ := (contains_iff _ id).mp h
  exact hlast.trans (set.words range hrange).2

theorem ext_contains {set other : OfWords}
    (h : ∀ id : Word, set.contains id = true ↔ other.contains id = true) : set = other := by
  have hranges : set.ranges = other.ranges := by
    refine eq_of_holds set.apart other.apart fun id => ?_
    rw [← contains_iff, ← contains_iff]
    by_cases hid : id < 2 ^ 64
    · exact h ⟨id, hid⟩
    · have hnone : ∀ set : OfWords, set.contains id ≠ true := fun set hheld =>
        hid (Nat.lt_of_le_pred (by decide) (le_of_contains hheld))
      simp [hnone]
  obtain ⟨⟨ranges, runs, ordered⟩, words⟩ := set
  obtain ⟨⟨ranges', runs', ordered'⟩, words'⟩ := other
  obtain rfl : ranges = ranges' := hranges
  rfl

end OfWords

/-! ## Overlap -/

/-- Whether two lists of ranges hold an id in common, walking both at once. -/
def overlapping : List SegmentRange → List SegmentRange → Bool
  | left :: mine, right :: theirs =>
    if left.last < right.first then overlapping mine (right :: theirs)
    else if right.last < left.first then overlapping (left :: mine) theirs
    else true
  | _, _ => false
termination_by mine theirs => mine.length + theirs.length

theorem overlapping_iff (h : Apart ranges) (h' : Apart others) :
    overlapping ranges others = true ↔ ∃ id, Holds ranges id ∧ Holds others id := by
  fun_induction overlapping ranges others with
  | case1 left mine right theirs hbefore ih =>
    obtain ⟨-, -, hmine⟩ := apart_cons.mp h
    have hrun := (apart_cons.mp h').1
    rw [ih hmine h']
    refine exists_congr fun id => and_congr_left fun hheld => ⟨fun h => holds_cons.mpr (.inr h),
      fun hleft => (holds_cons.mp hleft).resolve_left fun hleft => ?_⟩
    have := not_holds_past h' id
    have := holds_cons.mp hheld
    grind
  | case2 left mine right theirs _ hbefore ih =>
    obtain ⟨-, -, htheirs⟩ := apart_cons.mp h'
    have hrun := (apart_cons.mp h).1
    rw [ih h htheirs]
    refine exists_congr fun id => and_congr_right fun hheld => ⟨fun h => holds_cons.mpr (.inr h),
      fun hright => (holds_cons.mp hright).resolve_left fun hright => ?_⟩
    have := not_holds_past h id
    have := holds_cons.mp hheld
    grind
  | case3 left mine right theirs hleft hright =>
    have hrun := (apart_cons.mp h).1
    have hrun' := (apart_cons.mp h').1
    exact iff_of_true rfl ⟨max left.first right.first,
      holds_cons.mpr (.inl (by lia)), holds_cons.mpr (.inl (by lia))⟩
  | case4 ranges others hempty =>
    cases ranges with
    | nil => simp [Holds]
    | cons left mine =>
      cases others with
      | nil => simp [Holds]
      | cons right theirs => exact (hempty left mine right theirs rfl rfl).elim

def OfWords.overlaps (set other : OfWords) : Bool := overlapping set.ranges other.ranges

/-! ## Reading back -/

/-- Serialized segment ranges that are not sorted, disjoint and non-adjacent. -/
structure UnorderedRanges where
  deriving DecidableEq, Repr

/-- Whether each range ends more than one id before the next starts. -/
def spaced : List SegmentRange → Bool
  | left :: right :: rest => following left.last < right.first && spaced (right :: rest)
  | _ => true

/-- Whether ranges are runs, ascending, disjoint and non-adjacent. -/
def inOrder (ranges : List SegmentRange) : Bool :=
  ranges.all (fun range => range.first ≤ range.last) && spaced ranges

theorem inOrder_iff (h : Words ranges) : inOrder ranges = true ↔ Apart ranges := by
  induction ranges with
  | nil => simp [inOrder, spaced, Apart.mk, List.Pairwise.nil]
  | cons range rest ih =>
    specialize ih fun other hother => h other (List.mem_cons_of_mem _ hother)
    cases rest with
    | nil => simp [inOrder, spaced, apart_cons, Apart.mk, List.Pairwise.nil]
    | cons next rest =>
      have hnext := following_lt_iff range.last (h next (by simp)).1
      have hthen : Apart (next :: rest) → (range.last + 1 < next.first ↔
          ∀ other ∈ next :: rest, range.last + 1 < other.first) := by
        intro happart
        obtain ⟨hrun, hpast, -⟩ := apart_cons.mp happart
        refine ⟨fun hlt => List.forall_mem_cons.mpr ⟨hlt, fun other hother => ?_⟩,
          fun hall => hall next (by simp)⟩
        have := hpast other hother
        lia
      rw [apart_cons, ← ih]
      simp only [inOrder, spaced, List.all_cons, Bool.and_eq_true, decide_eq_true_eq, hnext] at ih ⊢
      tauto

/-- Ranges read back as a set, refused where they are not in its form. -/
def OfWords.tryFrom (ranges : List SegmentRange) (h : Words ranges) :
    Except UnorderedRanges OfWords :=
  if hordered : inOrder ranges then
    .ok { ranges, runs := ((inOrder_iff h).mp hordered).runs,
          ordered := ((inOrder_iff h).mp hordered).ordered, words := h }
  else .error {}

/-- A set holds the ids inserted, in ranges that are runs, sorted and apart; sets that hold the
    same ids are equal; overlap is told exactly; and ranges are read back, as they are, exactly when
    they are in that form. -/
theorem segment_sets_have_one_form :
    (∀ ids : List Word,
      Apart (OfWords.fromIter ids).ranges ∧
      ∀ id : Word, (OfWords.fromIter ids).contains id = true ↔ id ∈ ids) ∧
    (∀ set other : OfWords,
      (∀ id : Word, set.contains id = true ↔ other.contains id = true) → set = other) ∧
    (∀ set other : OfWords, set.overlaps other = true ↔
      ∃ id : Word, set.contains id = true ∧ other.contains id = true) ∧
    ∀ ranges (h : Words ranges),
      (∀ set, OfWords.tryFrom ranges h = .ok set → set.ranges = ranges) ∧
      ((∃ set, OfWords.tryFrom ranges h = .ok set) ↔ Apart ranges) := by
  refine ⟨fun ids => ⟨apart _, fun id => ?_⟩, fun set other h => OfWords.ext_contains h,
    fun set other => ?_, fun ranges h => ⟨?_, ?_⟩⟩
  · rw [OfWords.fromIter, OfWords.contains_foldl]
    exact or_iff_left (by simp [OfWords.new])
  · rw [OfWords.overlaps, overlapping_iff set.apart other.apart]
    simp only [← contains_iff]
    refine ⟨fun ⟨id, hmine, htheirs⟩ => ⟨⟨id, ?_⟩, hmine, htheirs⟩, fun ⟨id, h⟩ => ⟨id, h⟩⟩
    exact Nat.lt_of_le_pred (by decide) (OfWords.le_of_contains hmine)
  · intro set hset
    unfold OfWords.tryFrom at hset
    split at hset
    · cases hset
      rfl
    · cases hset
  · rw [← inOrder_iff h, OfWords.tryFrom]
    split <;> simp_all

end Rdlt.SegmentSet
