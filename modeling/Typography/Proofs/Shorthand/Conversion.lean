import Typography.Proofs.Number.Leading
import Typography.Proofs.Number.Positional
import Typography.Proofs.Shorthand.Reference

/-!
# What a conversion writes

A value of a shorthand is its fragment as it was written, or a decimal with a unit in its place:
`rem` for a font size, no unit for a line height and `em` for a letter spacing. A fragment is
converted only if it is in pixels and both it and its reference, the root size or the font size,
start with a number, that of the reference not zero. Neither NaN nor infinity, neither an
exponent nor a zero with a sign is written, `TypographyValues.isResolved_ofShorthand`, whatever
the root size says.
-/

namespace Typography

/-- The value starts with a number, behind leading blanks. -/
def StartsWithNumber (value : String) (x : Float) : Prop :=
  ∃ (n : Numeral) (front : List Char),
    n.IsLongest Char.isDigit front (Text.trimStart value.toList) ∧ n.number = x

/-- A digit stands directly before `px`. -/
theorem isPixelLength_iff {value : String} :
    isPixelLength value ↔
      ∃ before c after, value.toList = before ++ c :: 'p' :: 'x' :: after ∧ Text.isDigit c := by
  unfold isPixelLength
  generalize value.toList = cs
  constructor
  · intro h
    induction cs with
    | nil => cases h
    | cons c cs ih =>
      rw [hasPixels, Bool.or_eq_true, Bool.and_eq_true, List.isPrefixOf_iff_prefix] at h
      rcases h with ⟨hdigit, after, rfl⟩ | hpixels
      · exact ⟨[], c, after, rfl, hdigit⟩
      · obtain ⟨before, d, after, rfl, hdigit⟩ := ih hpixels
        exact ⟨c :: before, d, after, rfl, hdigit⟩
  · rintro ⟨before, c, after, rfl, hdigit⟩
    induction before with
    | nil => simp [hasPixels, hdigit]
    | cons d before ih => rw [List.cons_append, hasPixels, ih, Bool.or_true]

/-- A ratio that there is, is finite, and both lengths start with numbers. -/
theorem exists_of_ratio? {value reference : String} {ratio : Float}
    (h : ratio? value reference = some ratio) :
    ratio.isFinite ∧ (∃ x, StartsWithNumber value x) ∧
      ∃ y, StartsWithNumber reference y ∧ (y == 0.0) = false := by
  obtain ⟨x, hx, h⟩ := Option.bind_eq_some_iff.mp h
  obtain ⟨y, hy, h⟩ := Option.bind_eq_some_iff.mp h
  obtain ⟨n, front, hn, -, hnx⟩ := exists_isLongest_of_leadingNumber? hx
  obtain ⟨m, other, hm, -, hmy⟩ := exists_isLongest_of_leadingNumber? hy
  split at h
  · cases h
  rename_i hzero
  simp only at h
  split at h
  · rename_i hfinite
    obtain rfl := Option.some.inj h
    exact ⟨hfinite, ⟨x, n, front, hn, hnx⟩, y, ⟨m, other, hm, hmy⟩, by simpa using hzero⟩
  · cases h

namespace TypographyValues

/-- What becomes of a fragment that is measured by a reference and written in a unit. -/
inductive IsResolved (unit : String) (reference : Option String) :
    Option String → Option String → Prop
  /-- The fragment is kept as it was written, or there is none. -/
  | kept (fragment : Option String) : IsResolved unit reference fragment fragment
  /-- A decimal takes its place. -/
  | converted {fragment size value : String} {before after number : List Char} {digit : Char}
    {x y : Float} :
    reference = some size → value.toList = number ++ unit.toList → Decimal.IsSigned number →
      fragment.toList = before ++ digit :: 'p' :: 'x' :: after → Text.isDigit digit →
      StartsWithNumber fragment x → StartsWithNumber size y → (y == 0.0) = false →
      IsResolved unit reference (some fragment) (some value)

/-- A conversion by ratio keeps a fragment or writes the ratio with the unit. -/
theorem isResolved_convertPixels {unit size : String} {convert? : String → Option String}
    (hconvert : ∀ fragment value, convert? fragment = some value →
      ∃ ratio, ratio? fragment size = some ratio ∧ value = formatNumber ratio ++ unit)
    (fragment : String) :
    IsResolved unit (some size) (some fragment) (some (convertPixels convert? fragment)) := by
  unfold convertPixels
  by_cases hpixels : isPixelLength fragment
  · rw [if_pos hpixels]
    cases hvalue : convert? fragment with
    | none => exact .kept _
    | some value =>
      obtain ⟨ratio, hratio, rfl⟩ := hconvert fragment value hvalue
      obtain ⟨hfinite, ⟨x, hx⟩, y, hy, hzero⟩ := exists_of_ratio? hratio
      obtain ⟨before, digit, after, htext, hdigit⟩ := isPixelLength_iff.mp hpixels
      exact .converted rfl (String.toList_append ..) (Decimal.isSigned_formatNumber hfinite) htext
        hdigit hx hy hzero
  · rw [if_neg hpixels]
    exact .kept _

/-- A fragment that is measured by the font size is converted if the font size is not skipped. -/
theorem isResolved_relative {unit : String} {convert? : String → String → Option String}
    (hconvert : ∀ fragment size value, convert? fragment size = some value →
      ∃ ratio, ratio? fragment size = some ratio ∧ value = formatNumber ratio ++ unit)
    (fontSize fragment : Option String) :
    IsResolved unit fontSize fragment (fragment.map fun text =>
      match fontSize.filter (· != skipMarker) with
      | some size => convertPixels (convert? · size) text
      | none => text) := by
  cases fragment with
  | none => exact .kept none
  | some text =>
    rw [Option.map_some]
    split
    · rename_i size hsize
      obtain ⟨rfl, -⟩ := Option.filter_eq_some_iff.mp hsize
      exact isResolved_convertPixels (fun fragment => hconvert fragment size) text
    · exact .kept _

/-- For every shorthand and every root size, valid or not: each value is its fragment as it was
written, or a decimal with the unit of its position, and it is such a decimal only for a fragment
in pixels if the fragment and its reference start with numbers, the reference not with zero. -/
theorem isResolved_ofShorthand (shorthand : Shorthand) (rootSize : Option String) :
    IsResolved "rem" rootSize shorthand.fontSize (ofShorthand shorthand rootSize).fontSize ∧
      IsResolved "" shorthand.fontSize shorthand.lineHeight
        (ofShorthand shorthand rootSize).lineHeight ∧
      IsResolved "em" shorthand.fontSize shorthand.letterSpacing
        (ofShorthand shorthand rootSize).letterSpacing := by
  have hunit : ∀ {unit fragment size value : String},
      ((ratio? fragment size).map fun ratio => formatNumber ratio ++ unit) = some value →
        ∃ ratio, ratio? fragment size = some ratio ∧ value = formatNumber ratio ++ unit := by
    intro unit fragment size value h
    obtain ⟨ratio, hratio, rfl⟩ := Option.map_eq_some_iff.mp h
    exact ⟨ratio, hratio, rfl⟩
  refine ⟨?_, isResolved_relative (fun fragment size value h => ?_) _ _,
    isResolved_relative (fun _ _ _ => hunit) _ _⟩
  · change IsResolved "rem" rootSize shorthand.fontSize (shorthand.fontSize.map _)
    cases shorthand.fontSize with
    | none => exact .kept none
    | some fragment =>
      cases rootSize with
      | none => exact .kept (some fragment)
      | some root => exact isResolved_convertPixels (fun _ _ => hunit) fragment
  · obtain ⟨ratio, hratio, rfl⟩ := Option.map_eq_some_iff.mp h
    exact ⟨ratio, hratio, (String.append_empty).symm⟩

end TypographyValues

end Typography
