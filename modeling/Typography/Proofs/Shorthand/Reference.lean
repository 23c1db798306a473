import Typography.Proofs.Number.Positional
import Typography.Shorthand.Values

/-!
# What the font size is a reference for

A line height and a letter spacing in pixels are converted by their ratio to the font size, and
everything else is kept as it was written. Whether there is a ratio depends on the numbers at
the front of the two texts and not on the unit of the font size: a font size in `em` or in
percent is a reference as well. `Comparable` says when two lengths have a ratio, and
`TypographyValues.relative_eq_iff` that nothing else decides what is kept. A converted value is
never the text that it was converted from, as a number is written without letters and a length
in pixels has some.
-/

namespace Typography

/-- The unit of pixels does not stand in a number. -/
theorem p_notMem_formatNumber (x : Float) : 'p' ∉ (formatNumber x).toList := by
  have hdecimal : ∀ d : Decimal, 'p' ∉ (String.ofList d.positional).toList := by
    intro d hmem
    rw [String.toList_ofList] at hmem
    rcases d.isPlain_positional.isDigit_or_eq hmem with hdigit | hpoint
    · exact absurd hdigit (by decide)
    · exact absurd hpoint (by decide)
  unfold formatNumber
  split
  · decide
  · rename_i sign _
    cases sign <;> decide
  · decide
  · rename_i sign m e _ _
    cases sign with
    | positive => exact hdecimal _
    | negative =>
      rw [String.toList_append, List.mem_append]
      rintro (hsign | hmem)
      · exact absurd hsign (by decide)
      · exact hdecimal _ hmem

theorem p_mem_of_isPixelLength {value : String} (h : isPixelLength value) : 'p' ∈ value.toList := by
  unfold isPixelLength at h
  generalize value.toList = cs at h
  induction cs with
  | nil => cases h
  | cons c cs ih =>
    rw [hasPixels, Bool.or_eq_true, Bool.and_eq_true, List.isPrefixOf_iff_prefix] at h
    rcases h with ⟨-, hpixels⟩ | hpixels
    · exact List.mem_cons_of_mem c (hpixels.subset List.mem_cons_self)
    · exact List.mem_cons_of_mem c (ih hpixels)

/-- Two lengths start with numbers, the reference with one that is not zero, and their ratio is
finite. -/
def Comparable (value reference : String) : Prop :=
  ∃ x y, leadingNumber? value.toList = some x ∧ leadingNumber? reference.toList = some y ∧
    (y == 0.0) = false ∧ (Number.roundTo (x / y) ratioPlaces).isFinite

theorem ratio?_eq_none_iff {value reference : String} :
    ratio? value reference = none ↔ ¬ Comparable value reference := by
  unfold ratio? Comparable
  cases leadingNumber? value.toList with
  | none => simp
  | some x =>
    cases leadingNumber? reference.toList with
    | none => simp
    | some y => by_cases hy : y == 0.0 <;> simp [hy]

/-- A skipped font size is no reference. -/
theorem not_comparable_skipMarker (value : String) : ¬ Comparable value skipMarker := by
  rintro ⟨-, y, -, hy, -⟩
  have hnone : leadingNumber? skipMarker.toList = none := by decide +kernel
  cases hnone.symm.trans hy

/-- A fragment of a shorthand that is relative to its font size: it is in pixels and can be
compared with the font size. -/
def Shorthand.IsRelative (shorthand : Shorthand) (fragment : Option String) : Prop :=
  ∃ value size, fragment = some value ∧ shorthand.fontSize = some size ∧ isPixelLength value ∧
    Comparable value size

namespace TypographyValues

/-- What a conversion writes is no length in pixels, so a fragment stays what it is only if it
is not converted. -/
theorem convertPixels_eq_self_iff {convert? : String → Option String}
    (hconvert : ∀ fragment value, convert? fragment = some value → 'p' ∉ value.toList)
    (fragment : String) :
    convertPixels convert? fragment = fragment ↔
      (isPixelLength fragment → convert? fragment = none) := by
  unfold convertPixels
  by_cases hpixels : isPixelLength fragment
  · rw [if_pos hpixels]
    cases hvalue : convert? fragment with
    | none => simp
    | some value =>
      have hne : value ≠ fragment := by
        rintro rfl
        exact hconvert _ _ hvalue (p_mem_of_isPixelLength hpixels)
      simp [hne, hpixels]
  · simp [hpixels]

/-- With a conversion that is there for what can be compared, a fragment is kept unless it is
relative. -/
theorem relative_eq_self_iff {convert? : String → String → Option String}
    (hnone : ∀ value reference, convert? value reference = none ↔ ¬ Comparable value reference)
    (hp : ∀ value reference text, convert? value reference = some text → 'p' ∉ text.toList)
    (shorthand : Shorthand) (fragment : Option String) :
    (fragment.map fun value =>
        match shorthand.fontSize.filter (· != skipMarker) with
        | some size => convertPixels (convert? · size) value
        | none => value) = fragment ↔ ¬ shorthand.IsRelative fragment := by
  unfold Shorthand.IsRelative
  cases fragment with
  | none => simp
  | some value =>
    cases shorthand.fontSize with
    | none => simp
    | some size =>
      by_cases hskip : size = skipMarker
      · have hfilter : Option.filter (· != skipMarker) (some skipMarker) = none := by simp
        rw [hskip, hfilter]
        simp [not_comparable_skipMarker]
      · have hfilter : (some size).filter (· != skipMarker) = some size := by simp [hskip]
        rw [hfilter, Option.map_some, Option.some.injEq,
          convertPixels_eq_self_iff (fun fragment => hp fragment size), hnone]
        simp

theorem p_notMem_of_ratio {value reference text : String}
    (h : (ratio? value reference).map formatNumber = some text) : 'p' ∉ text.toList := by
  obtain ⟨ratio, -, rfl⟩ := Option.map_eq_some_iff.mp h
  exact p_notMem_formatNumber ratio

theorem p_notMem_of_em? {value reference text : String} (h : em? value reference = some text) :
    'p' ∉ text.toList := by
  obtain ⟨ratio, -, rfl⟩ := Option.map_eq_some_iff.mp h
  rw [String.toList_append, List.mem_append]
  rintro (hmem | hunit)
  · exact p_notMem_formatNumber ratio hmem
  · exact absurd hunit (by decide)

/-- For every shorthand and every root size, whatever the font size is: the line height and the
letter spacing are each kept as they were written, or absent, exactly unless they are in pixels
and can be compared with the font size. -/
theorem relative_eq_iff (shorthand : Shorthand) (rootSize : Option String) :
    ((ofShorthand shorthand rootSize).lineHeight = shorthand.lineHeight ↔
        ¬ shorthand.IsRelative shorthand.lineHeight) ∧
      ((ofShorthand shorthand rootSize).letterSpacing = shorthand.letterSpacing ↔
        ¬ shorthand.IsRelative shorthand.letterSpacing) := by
  refine ⟨relative_eq_self_iff (fun value reference => ?_) (fun _ _ _ => p_notMem_of_ratio) _ _,
    relative_eq_self_iff (fun value reference => ?_) (fun _ _ _ => p_notMem_of_em?) _ _⟩
  · rw [Option.map_eq_none_iff, ratio?_eq_none_iff]
  · rw [em?, Option.map_eq_none_iff, ratio?_eq_none_iff]

/-- A font size that is not in pixels may be a reference nevertheless. -/
theorem relative_eq_ne :
    ¬ ∀ size, (Shorthand.ofText "2em 15px 1px").fontSize = some size →
      isPixelLength size = false →
        (ofShorthand (Shorthand.ofText "2em 15px 1px") none).lineHeight =
            (Shorthand.ofText "2em 15px 1px").lineHeight ∧
          (ofShorthand (Shorthand.ofText "2em 15px 1px") none).letterSpacing =
            (Shorthand.ofText "2em 15px 1px").letterSpacing := by
  intro hclaim
  obtain ⟨hlineHeight, -⟩ := hclaim "2em" (by decide +kernel) (by decide +kernel)
  revert hlineHeight
  decide +kernel

end TypographyValues

end Typography
