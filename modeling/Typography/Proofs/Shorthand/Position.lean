import Typography.Proofs.Shorthand.Conversion
import Typography.Proofs.Text.Trim

/-!
# Positions of a shorthand

The value of a shorthand is its words: what is left between blanks. Behind the name of a media
query the first three words have a position each, and a position is declared exactly if it has
a word other than the skip marker, `TypographyValues.positions_declarations`. No conversion gets
in the way: what it makes of a word is a word again, and it neither makes a skip marker nor
takes one away. Words behind the last position do not matter.
-/

namespace Typography

namespace Text

/-- A text that is not empty and has no blank. -/
def IsWord (text : String) : Prop :=
  text ≠ "" ∧ ∀ c ∈ text.toList, isBlank c = false

theorem fragmentsFrom_eq (word cs : List Char) :
    fragmentsFrom word cs = ((cs.splitOnP isBlank).modifyHead (word ++ ·)).filter (· ≠ []) := by
  induction cs generalizing word with
  | nil => by_cases hword : word = [] <;> simp [fragmentsFrom, hword]
  | cons c cs ih =>
    rw [fragmentsFrom, List.splitOnP_cons_eq_if_modifyHead]
    obtain ⟨front, parts, hparts⟩ :=
      List.exists_cons_of_ne_nil (List.splitOnP_ne_nil isBlank cs)
    rw [hparts] at ih ⊢
    by_cases hc : isBlank c <;> by_cases hword : word = [] <;> simp [hc, hword, ih]

/-- The fragments of a text are what is left between its blanks. -/
theorem fragments_eq (cs : List Char) :
    fragments cs = (cs.splitOnP isBlank).filter (· ≠ []) := by
  obtain ⟨front, parts, hparts⟩ := List.exists_cons_of_ne_nil (List.splitOnP_ne_nil isBlank cs)
  rw [fragments, fragmentsFrom_eq, hparts, List.modifyHead_cons, List.nil_append]

theorem isBlank_eq_false_of_mem_splitOnP {cs part : List Char}
    (h : part ∈ cs.splitOnP isBlank) : ∀ c ∈ part, isBlank c = false := by
  induction cs generalizing part with
  | nil =>
    rw [List.splitOnP_nil, List.mem_singleton] at h
    simp [h]
  | cons c cs ih =>
    rw [List.splitOnP_cons_eq_if_modifyHead] at h
    obtain ⟨front, parts, hparts⟩ :=
      List.exists_cons_of_ne_nil (List.splitOnP_ne_nil isBlank cs)
    rw [hparts] at ih h
    by_cases hc : isBlank c
    · rw [if_pos hc, List.mem_cons] at h
      rcases h with rfl | h
      · simp
      · exact ih h
    · rw [if_neg hc, List.modifyHead_cons, List.mem_cons] at h
      rcases h with rfl | h
      · exact List.forall_mem_cons.mpr ⟨by simpa using hc, ih List.mem_cons_self⟩
      · exact ih (List.mem_cons_of_mem _ h)

end Text

namespace Decimal

theorem isBlank_eq_false_of_isDigit {c : Char} (h : c.isDigit) : Text.isBlank c = false := by
  simp only [Char.isDigit, Bool.and_eq_true, decide_eq_true_eq] at h
  have hlow : 48 ≤ c.toNat := UInt32.le_iff_toNat_le.mp h.1
  have hhigh : c.toNat ≤ 57 := UInt32.le_iff_toNat_le.mp h.2
  exact Text.isBlank_of_toNat (by omega)

theorem IsPlain.isBlank_eq_false {text : List Char} (h : IsPlain text) :
    ∀ c ∈ text, Text.isBlank c = false := by
  intro c hc
  cases h with
  | whole _ hdigits => exact isBlank_eq_false_of_isDigit (hdigits c hc)
  | pointed _ _ hdigits =>
    rcases List.mem_append.mp hc with hc | hc
    · exact isBlank_eq_false_of_isDigit (hdigits c (List.mem_append_left _ hc))
    · rcases List.mem_cons.mp hc with rfl | hc
      · rfl
      · exact isBlank_eq_false_of_isDigit (hdigits c (List.mem_append_right _ hc))

/-- There is no blank in a decimal. -/
theorem IsSigned.isBlank_eq_false {text : List Char} (h : IsSigned text) :
    ∀ c ∈ text, Text.isBlank c = false := by
  cases h with
  | unsigned hplain => exact hplain.isBlank_eq_false
  | negative hplain => exact List.forall_mem_cons.mpr ⟨rfl, hplain.isBlank_eq_false⟩

theorem IsPlain.exists_cons {text : List Char} (h : IsPlain text) :
    ∃ c cs, text = c :: cs ∧ c.isDigit := by
  cases h with
  | whole hne hdigits =>
    obtain ⟨c, cs, rfl⟩ := List.exists_cons_of_ne_nil hne
    exact ⟨c, cs, rfl, hdigits c List.mem_cons_self⟩
  | pointed hne _ hdigits =>
    obtain ⟨c, cs, rfl⟩ := List.exists_cons_of_ne_nil hne
    exact ⟨c, _, rfl, hdigits c List.mem_cons_self⟩

/-- A decimal starts with a digit or a minus. -/
theorem IsSigned.exists_cons {text : List Char} (h : IsSigned text) :
    ∃ c cs, text = c :: cs ∧ (c.isDigit ∨ c = '-') := by
  cases h with
  | unsigned hplain =>
    obtain ⟨c, cs, rfl, hc⟩ := hplain.exists_cons
    exact ⟨c, cs, rfl, .inl hc⟩
  | negative => exact ⟨'-', _, rfl, .inr rfl⟩

end Decimal

namespace Shorthand

/-- The words of the value of a shorthand: what is left between its blanks. -/
def words (raw : String) : List String :=
  ((raw.toList.splitOnP Text.isBlank).filter (· ≠ [])).map String.ofList

/-- The number of words before the first position: one if the first word is the name of a media
query. -/
def lead (raw : String) : Nat :=
  if (words raw).head?.any isCustomMedia then 1 else 0

/-- The properties of the positions. -/
def properties : List String :=
  ["font-size", "line-height", "letter-spacing"]

theorem isWord_of_mem_words {raw word : String} (h : word ∈ words raw) : Text.IsWord word := by
  obtain ⟨part, hpart, rfl⟩ := List.mem_map.mp h
  obtain ⟨hmem, hne⟩ := List.mem_filter.mp hpart
  refine ⟨by simpa using hne, ?_⟩
  rw [String.toList_ofList]
  exact Text.isBlank_eq_false_of_mem_splitOnP hmem

/-- A shorthand is read from its words. -/
theorem ofText_eq (raw : String) :
    ofText raw =
      ofFragments ((words raw).head?.filter isCustomMedia) ((words raw).drop (lead raw)) := by
  rw [ofText, Text.fragments_eq, ← words, lead]
  cases words raw with
  | nil => rfl
  | cons first others =>
    by_cases hmedia : isCustomMedia first <;> simp [hmedia, Option.filter]

/-- Words that are the same up to the last position make the same shorthand. -/
theorem ofText_congr {raw other : String}
    (h : (words raw).take (lead raw + 3) = (words other).take (lead raw + 3)) :
    ofText raw = ofText other := by
  have hhead : (words raw).head? = (words other).head? := by
    have := congrArg List.head? h
    rwa [List.head?_take, List.head?_take, if_neg (by omega), if_neg (by omega)] at this
  have hlead : lead other = lead raw := by rw [lead, lead, hhead]
  have hget : ∀ i < 3, (words raw)[lead raw + i]? = (words other)[lead raw + i]? := by
    intro i hi
    have := congrArg (·[lead raw + i]?) h
    simpa [List.getElem?_take_of_lt (show lead raw + i < lead raw + 3 by omega)] using this
  rw [ofText_eq, ofText_eq other, hhead, hlead]
  simp only [ofFragments, List.getElem?_drop]
  rw [hget 0 (by decide), hget 1 (by decide), hget 2 (by decide)]

end Shorthand

namespace TypographyValues

open Shorthand

/-- A conversion that makes words of words, and neither makes skip markers nor takes them
away. -/
def KeepsWords (convert : String → String) : Prop :=
  ∀ text, Text.IsWord text →
    Text.IsWord (convert text) ∧ (convert text = skipMarker ↔ text = skipMarker)

theorem keepsWords_id : KeepsWords fun text => text :=
  fun _ hword => ⟨hword, Iff.rfl⟩

/-- A ratio with its unit is a word that starts with a digit or a minus. -/
theorem isWord_of_ratio? {value reference unit : String} {ratio : Float}
    (h : ratio? value reference = some ratio)
    (hunit : unit.toList.any Text.isBlank = false) :
    Text.IsWord (formatNumber ratio ++ unit) ∧ formatNumber ratio ++ unit ≠ skipMarker := by
  obtain ⟨hfinite, -⟩ := exists_of_ratio? h
  have hsigned := Decimal.isSigned_formatNumber hfinite
  obtain ⟨c, cs, hcons, hc⟩ := hsigned.exists_cons
  have htext : (formatNumber ratio ++ unit).toList = c :: (cs ++ unit.toList) := by
    rw [String.toList_append, hcons, List.cons_append]
  refine ⟨⟨fun hempty => ?_, ?_⟩, fun hskip => ?_⟩
  · rw [hempty] at htext
    cases htext
  · rw [String.toList_append]
    refine List.forall_mem_append.mpr ⟨hsigned.isBlank_eq_false, fun c hc => ?_⟩
    simpa using List.any_eq_false.mp hunit c hc
  · rw [hskip] at htext
    obtain rfl : c = '/' := (List.cons.inj htext).1.symm
    rcases hc with hc | hc <;> cases hc

/-- A conversion by ratio keeps words: a skip marker is not in pixels. -/
theorem keepsWords_convertPixels (unit size : String) {convert? : String → Option String}
    (hunit : unit.toList.any Text.isBlank = false)
    (hconvert : ∀ fragment, convert? fragment =
      (ratio? fragment size).map fun ratio => formatNumber ratio ++ unit) :
    KeepsWords (convertPixels convert?) := by
  intro text hword
  unfold convertPixels
  by_cases hpixels : isPixelLength text
  · have hne : text ≠ skipMarker := by
      rintro rfl
      exact absurd hpixels (by decide)
    rw [if_pos hpixels, hconvert]
    cases hratio : ratio? text size with
    | none => exact ⟨hword, Iff.rfl⟩
    | some ratio =>
      obtain ⟨hvalue, hskip⟩ := isWord_of_ratio? hratio hunit
      exact ⟨hvalue, iff_of_false hskip hne⟩
  · rw [if_neg hpixels]
    exact ⟨hword, Iff.rfl⟩

/-- The conversions of the three positions keep words. -/
theorem exists_keepsWords (shorthand : Shorthand) (rootSize : Option String) :
    ∃ fontSize lineHeight letterSpacing : String → String,
      KeepsWords fontSize ∧ KeepsWords lineHeight ∧ KeepsWords letterSpacing ∧
        ofShorthand shorthand rootSize =
          ⟨shorthand.fontSize.map fontSize, shorthand.lineHeight.map lineHeight,
            shorthand.letterSpacing.map letterSpacing⟩ := by
  refine ⟨_, _, _, ?_, ?_, ?_, rfl⟩
  · cases rootSize with
    | none => exact keepsWords_id
    | some root => exact keepsWords_convertPixels "rem" root (by decide) fun _ => rfl
  all_goals cases shorthand.fontSize.filter (· != skipMarker) with
    | none => exact keepsWords_id
    | some size => ?_
  · refine keepsWords_convertPixels "" size (by decide) fun fragment => ?_
    simp only [String.append_empty]
  · exact keepsWords_convertPixels "em" size (by decide) fun _ => rfl

/-- A position is declared exactly if it has a word that is not the skip marker. -/
theorem declaration?_map (property : String) {convert : String → String}
    (hconvert : KeepsWords convert) {fragment : Option String}
    (hword : ∀ text ∈ fragment, Text.IsWord text) :
    (declaration? property (fragment.map convert)).map Prod.fst =
        (if fragment.any (· ≠ skipMarker) then some property else none) ∧
      ∀ pair ∈ declaration? property (fragment.map convert),
        Text.IsWord pair.2 ∧ pair.2 ≠ skipMarker := by
  cases fragment with
  | none => simp [declaration?]
  | some text =>
    obtain ⟨hvalue, hskip⟩ := hconvert text (hword text rfl)
    by_cases hmarker : convert text = skipMarker
    · obtain rfl := hskip.mp hmarker
      simp [declaration?, hmarker]
    · simp [declaration?, hmarker, mt hskip.mpr hmarker, hvalue, hvalue.1]

/-- The declarations come from the words at the positions. -/
theorem exists_declarations_eq (rootSize : Option String) (raw : String) :
    ∃ fontSize lineHeight letterSpacing : String → String,
      KeepsWords fontSize ∧ KeepsWords lineHeight ∧ KeepsWords letterSpacing ∧
        (ofShorthand (ofText raw) rootSize).declarations =
          [declaration? "font-size" ((words raw)[lead raw]?.map fontSize),
            declaration? "line-height" ((words raw)[lead raw + 1]?.map lineHeight),
            declaration? "letter-spacing"
              ((words raw)[lead raw + 2]?.map letterSpacing)].filterMap id := by
  obtain ⟨fontSize, lineHeight, letterSpacing, hfont, hline, hspacing, hvalues⟩ :=
    exists_keepsWords (ofText raw) rootSize
  refine ⟨fontSize, lineHeight, letterSpacing, hfont, hline, hspacing, ?_⟩
  rw [hvalues, declarations, ofText_eq]
  simp only [ofFragments, List.getElem?_drop, Nat.add_zero]

/-- For every value of a shorthand and every root size: the properties that are declared are, in
order, those of the positions that have a word other than the skip marker; each value is a word
and not the skip marker; and with the same words up to the last position another value of a
shorthand has the same media query and the same declarations. -/
theorem positions_declarations (rootSize : Option String) (raw : String) :
    (ofShorthand (ofText raw) rootSize).declarations.map Prod.fst =
        (properties.zipIdx.filter fun position =>
          (words raw)[lead raw + position.2]?.any (· ≠ skipMarker)).map Prod.fst ∧
      (∀ pair ∈ (ofShorthand (ofText raw) rootSize).declarations,
        pair.2 ≠ "" ∧ (∀ c ∈ pair.2.toList, Text.isBlank c = false) ∧ pair.2 ≠ skipMarker) ∧
      ∀ other : String,
        (words raw).take (lead raw + 3) = (words other).take (lead raw + 3) →
          (ofText raw).media = (ofText other).media ∧
            (ofShorthand (ofText raw) rootSize).declarations =
              (ofShorthand (ofText other) rootSize).declarations := by
  obtain ⟨fontSize, lineHeight, letterSpacing, hfont, hline, hspacing, hdeclarations⟩ :=
    exists_declarations_eq rootSize raw
  have hword : ∀ n, ∀ text ∈ (words raw)[n]?, Text.IsWord text := fun n text htext =>
    isWord_of_mem_words (List.mem_of_getElem? htext)
  obtain ⟨hsize, hsizes⟩ := declaration?_map "font-size" hfont (hword (lead raw))
  obtain ⟨hheight, hheights⟩ := declaration?_map "line-height" hline (hword (lead raw + 1))
  obtain ⟨hspace, hspaces⟩ := declaration?_map "letter-spacing" hspacing (hword (lead raw + 2))
  refine ⟨?_, fun pair hpair => ?_, fun other h => ?_⟩
  · rw [hdeclarations, List.map_filterMap, ← List.filterMap_eq_map, List.filterMap_filter]
    change _ = [("font-size", 0), ("line-height", 1), ("letter-spacing", 2)].filterMap _
    simp only [List.filterMap_cons, List.filterMap_nil, id, hsize, hheight, hspace, Nat.add_zero,
      Function.comp_apply]
  · have hvalue : Text.IsWord pair.2 ∧ pair.2 ≠ skipMarker := by
      rw [hdeclarations] at hpair
      obtain ⟨declared, hmem, hdeclared⟩ := List.mem_filterMap.mp hpair
      simp only [List.mem_cons, List.not_mem_nil, or_false] at hmem
      rcases hmem with rfl | rfl | rfl
      · exact hsizes pair hdeclared
      · exact hheights pair hdeclared
      · exact hspaces pair hdeclared
    exact ⟨hvalue.1.1, hvalue.1.2, hvalue.2⟩
  · rw [ofText_congr h]
    exact ⟨rfl, rfl⟩

/-- A line height that is skipped, a letter spacing in pixels and a word too many, with a
no-break space and a tab among the blanks. -/
theorem positions_declarations_ofSkippedLineHeight :
    words "\u00a0--s 10px\t/ 1px bold" = ["--s", "10px", "/", "1px", "bold"] ∧
      (ofShorthand (ofText "\u00a0--s 10px\t/ 1px bold") (some "16px")).declarations =
        [("font-size", "0.625rem"), ("letter-spacing", "0.1em")] ∧
      Text.IsWord "0.1em" ∧
      (ofText "--s 10px / 1px").media = some "--s" ∧
      (ofShorthand (ofText "--s 10px / 1px") (some "16px")).declarations =
        [("font-size", "0.625rem"), ("letter-spacing", "0.1em")] := by
  have hdeclarations :
      (ofShorthand (ofText "\u00a0--s 10px\t/ 1px bold") (some "16px")).declarations =
        [("font-size", "0.625rem"), ("letter-spacing", "0.1em")] := by decide +kernel
  obtain ⟨-, hvalues, hsame⟩ :=
    positions_declarations (some "16px") "\u00a0--s 10px\t/ 1px bold"
  have hmem : ("letter-spacing", "0.1em") ∈
      (ofShorthand (ofText "\u00a0--s 10px\t/ 1px bold") (some "16px")).declarations := by
    simp [hdeclarations]
  obtain ⟨hne, hblank, -⟩ := hvalues _ hmem
  obtain ⟨hmedia, hother⟩ := hsame "--s 10px / 1px" (by decide +kernel)
  refine ⟨by decide +kernel, hdeclarations, ⟨hne, hblank⟩, ?_, ?_⟩
  · rw [← hmedia]
    decide +kernel
  · rw [← hother, hdeclarations]

end TypographyValues

end Typography
