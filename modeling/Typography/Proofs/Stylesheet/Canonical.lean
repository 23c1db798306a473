import Typography.Proofs.Stylesheet.Plain
import Typography.Proofs.Stylesheet.ReadBack

/-!
# Canonical texts

The layout of what was read need not be read again as the same: a comment right behind
the colon of a declaration is kept at first, and dropped once a blank stands before it.
A text comes back from reading and writing exactly if it is canonical, that is, the
layout of trees that are settled, `Layout.isCanonical_iff`. So a layout that was written
once is stable if the trees that were read are settled, or if it is the layout of
others that are, and in no other case.
-/

namespace Typography

namespace Layout

open Typography.Tree

/-- The layout says nothing about spans. -/
theorem stylesheet_congr {trees trees' : List Tree} (h : AllOrderly trees)
    (h' : AllOrderly trees') (hbare : bareAll trees = bareAll trees') :
    stylesheet trees = stylesheet trees' := by
  rw [← String.toList_inj, toList_stylesheet h, toList_stylesheet h',
    (bareAll_eq_iff h h').mp hbare]

/-- A text is canonical if it is the layout of trees that are read back from it. -/
def IsCanonical (text : String) : Prop :=
  ∃ trees, AllOrderly trees ∧ AllSettled trees ∧ stylesheet trees = text

/-- Plain trees have a canonical layout. -/
theorem isCanonical_stylesheet {trees : List Tree} (h : ArePlain trees) :
    IsCanonical (stylesheet trees) :=
  ⟨trees, h.orderly, h.allSettled, rfl⟩

/-- The texts that come back from reading and writing are the canonical ones. -/
theorem isCanonical_iff (text : String) :
    IsCanonical text ↔ stylesheet (Reading.ofText text).trees = text := by
  obtain ⟨hread, -⟩ := Reading.orderly_ofText text
  constructor
  · rintro ⟨trees, horderly, hsettled, rfl⟩
    exact stylesheet_congr hread horderly (hsettled.bareAll_eq horderly)
  · intro h
    refine ⟨(Reading.ofText text).trees, hread, ?_, h⟩
    rw [← bareAll_eq_iff_allSettled hread, h]

/-- Writing what was read, and reading and writing it again: the trees are the same
exactly if they are settled, and the text is exactly if it is canonical, for which the
trees suffice. -/
theorem stylesheet_ofText_stylesheet (css : String) :
    let trees := (Reading.ofText css).trees
    let again := (Reading.ofText (stylesheet trees)).trees
    (stylesheet again = stylesheet trees ↔ IsCanonical (stylesheet trees)) ∧
      (bareAll again = bareAll trees ↔ AllSettled trees) ∧
      (AllSettled trees → IsCanonical (stylesheet trees)) := by
  obtain ⟨hread, -⟩ := Reading.orderly_ofText css
  exact ⟨(isCanonical_iff _).symm, bareAll_eq_iff_allSettled hread,
    fun hsettled => ⟨_, hread, hsettled, rfl⟩⟩

/-- A comment right behind a colon is lost the second time. -/
theorem stylesheet_ofText_stylesheet_ne :
    let trees := (Reading.ofText "a:/**/b").trees
    stylesheet trees = "a: /**/b;" ∧
      stylesheet (Reading.ofText (stylesheet trees)).trees = "a: b;" ∧
      stylesheet (Reading.ofText (stylesheet trees)).trees ≠ stylesheet trees := by
  decide +kernel

end Layout

end Typography
