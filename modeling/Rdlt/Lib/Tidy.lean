/-
  Rdlt.Lib.Tidy

  Joins that leave alone what is already equal. Values have a content, which the
  join combines, and a form; the join of two equal values is either of them,
  form and all, and of two others a tidy value, whose content is all there is to
  it.
-/

import Mathlib.Logic.Basic

namespace Rdlt.Lib

/-- A join of values of which only tidy ones are told apart by their contents alone. -/
structure TidyJoin {X Y : Type} (join : X → X → X) (content : X → Y) (combine : Y → Y → Y)
    (tidy : X → Prop) : Prop where
  self : ∀ x, join x x = x
  content_join : ∀ x y, content (join x y) = combine (content x) (content y)
  tidy_join : ∀ x y, x ≠ y → tidy (join x y)
  eq_of_content : ∀ x y, tidy x → tidy y → content x = content y → x = y

namespace TidyJoin

variable {X Y : Type} {join : X → X → X} {content : X → Y} {combine : Y → Y → Y} {tidy : X → Prop}

theorem comm (h : TidyJoin join content combine tidy) {x y : X}
    (hcomm : combine (content x) (content y) = combine (content y) (content x)) :
    join x y = join y x := by
  by_cases hsame : x = y
  · rw [hsame]
  · refine h.eq_of_content _ _ (h.tidy_join x y hsame) (h.tidy_join y x (Ne.symm hsame)) ?_
    rw [h.content_join, h.content_join, hcomm]

theorem assoc (h : TidyJoin join content combine tidy) {x y z : X}
    (hassoc : combine (combine (content x) (content y)) (content z)
      = combine (content x) (combine (content y) (content z))) :
    join (join x y) z = join x (join y z) := by
  by_cases hall : x = y ∧ y = z
  · obtain ⟨rfl, rfl⟩ := hall
    rw [h.self]
  -- unless all three are one, both sides are tidy
  refine h.eq_of_content _ _ ?_ ?_ ?_
  · by_cases hlast : join x y = z
    · rw [hlast, h.self, ← hlast]
      refine h.tidy_join x y fun hxy => hall ⟨hxy, ?_⟩
      rw [← hlast, ← hxy, h.self]
    · exact h.tidy_join _ _ hlast
  · by_cases hfirst : x = join y z
    · rw [← hfirst, h.self, hfirst]
      refine h.tidy_join y z fun hyz => hall ⟨?_, hyz⟩
      rw [hfirst, ← hyz, h.self]
    · exact h.tidy_join _ _ hfirst
  · rw [h.content_join, h.content_join, h.content_join, h.content_join, hassoc]

end TidyJoin

end Rdlt.Lib
