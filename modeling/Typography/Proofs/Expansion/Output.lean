import Typography.Pipeline
import Typography.Proofs.Expansion.Refinement
import Typography.Proofs.Stylesheet.Canonical

/-!
# The output of an expansion, read again

The value of a shorthand is cut at blanks, also inside brackets, so what an expansion
writes need not be read as what it has left. It is exactly if the marks are settled that
the expansion has put where there were others before, `Processed.ofText_output`. Then
there is no shorthand left to expand, and processing the output again changes nothing.
-/

namespace Typography

namespace Processed

open Typography.Tree

/-- What has been processed is the layout of the rewritten trees. -/
theorem ofText_of_ok {file : Option String} {css : String} {options : Options} {report : Report}
    {out : String} (h : (ofText file css options).result = .ok (report, out)) :
    options.validate = .ok () ∧
      ((Document.ofTrees file (Reading.ofText css).trees).expand options).document.trees =
        expandedAll options.usedRootSize (Reading.ofText css).trees ∧
      out = Layout.stylesheet (expandedAll options.usedRootSize (Reading.ofText css).trees) := by
  obtain ⟨horderly, -⟩ := Reading.orderly_ofText css
  have htrees := Document.trees_ofTrees file horderly.allHoused
  rw [ofText] at h
  dsimp only at h
  cases hvalid : options.validate with
  | error cause =>
    rw [Document.expand_of_validate_error hvalid] at h
    cases h
  | ok _ =>
    rcases (Document.sound_ofTrees file (Reading.ofText css).trees).expand_cases hvalid with
      ⟨-, hresult, hleft⟩ | ⟨-, location, hmissing⟩
    · rw [hresult] at h
      rw [htrees] at hleft
      exact ⟨rfl, hleft, by rw [← hleft, (Prod.mk.inj (Except.ok.inj h)).2]⟩
    · rw [hmissing] at h
      cases h

/-- Without shorthands the text is laid out, and nothing else happens. -/
theorem result_of_no_shorthands {css : String} {options : Options}
    (hvalid : options.validate = .ok ()) (h : shorthandsOfAll (Reading.ofText css).trees = [])
    (file : Option String) :
    (ofText file css options).result =
      .ok (.zero, Layout.stylesheet (Reading.ofText css).trees) := by
  obtain ⟨horderly, -⟩ := Reading.orderly_ofText css
  have htrees := Document.trees_ofTrees file horderly.allHoused
  rcases (Document.sound_ofTrees file (Reading.ofText css).trees).expand_cases hvalid with
    ⟨-, hresult, hleft⟩ | ⟨⟨raw, hraw, -⟩, -⟩
  · rw [htrees, h] at hresult
    rw [htrees, expandedAll_of_no_shorthands h] at hleft
    rw [ofText]
    dsimp only
    rw [hresult, hleft]
    rfl
  · rw [htrees, h] at hraw
    cases hraw

/-- Processing an output again that is read as the rewritten trees changes nothing. -/
theorem result_of_bareAll_eq {file : Option String} {css : String} {options : Options}
    {report : Report} {out : String}
    (h : (ofText file css options).result = .ok (report, out))
    (hbare : bareAll (Reading.ofText out).trees =
      bareAll (expandedAll options.usedRootSize (Reading.ofText css).trees)) :
    (ofText file out options).result = .ok (.zero, out) := by
  obtain ⟨hvalid, -, hout⟩ := ofText_of_ok h
  obtain ⟨horderly, -⟩ := Reading.orderly_ofText css
  obtain ⟨hagain, -⟩ := Reading.orderly_ofText out
  have hnone : shorthandsOfAll (Reading.ofText out).trees = [] := by
    rw [← shorthandsOfAll_bareAll, hbare, shorthandsOfAll_bareAll, shorthandsOfAll_expandedAll]
  rw [result_of_no_shorthands hvalid hnone,
    Layout.stylesheet_congr hagain horderly.expandedAll hbare, ← hout]

/-- For a stylesheet that is read back from its own layout, the output of an expansion is
read as what the expansion left exactly if each mark is settled that was not at the same
place before. Then processing the output again finds no shorthand and changes nothing. -/
theorem ofText_output (file : Option String) (css : String) (options : Options) (report : Report)
    (out : String)
    (hcss : bareAll (Reading.ofText (Layout.stylesheet (Reading.ofText css).trees)).trees =
      bareAll (Reading.ofText css).trees)
    (h : (ofText file css options).result = .ok (report, out)) :
    let before := (Reading.ofText css).trees
    let left := ((Document.ofTrees file before).expand options).document.trees
    let again := (Reading.ofText out).trees
    (bareAll again = bareAll left ↔ ∀ s ∈ Mark.segments 0 (marksOfAll left),
        s ∉ Mark.segments 0 (marksOfAll before) → s.Settled) ∧
      (bareAll again = bareAll left →
        (ofText file out options).result = .ok (.zero, out)) := by
  obtain ⟨-, hleft, hout⟩ := ofText_of_ok h
  obtain ⟨horderly, -⟩ := Reading.orderly_ofText css
  have hexpanded : AllOrderly (expandedAll options.usedRootSize (Reading.ofText css).trees) :=
    horderly.expandedAll
  dsimp only
  rw [hleft]
  constructor
  · have hsettled := (bareAll_eq_iff_allSettled horderly).mp hcss
    rw [hout, bareAll_eq_iff_allSettled hexpanded]
    refine ⟨fun hall s hs _ => hall s hs, fun hnew s hs => ?_⟩
    by_cases hold : s ∈ Mark.segments 0 (marksOfAll (Reading.ofText css).trees)
    · exact hsettled s hold
    · exact hnew s hs hold
  · exact result_of_bareAll_eq h

/-- A shorthand that becomes a media block, and one that becomes two declarations. -/
theorem ofText_output_ofTwoShorthands :
    let css := "@type --m 1em; a \x7b type: 2em / 1 \x7d"
    let out := "@media (--m) \x7b\n    font-size: 1em\n\x7d\n" ++
      "a \x7b\n    font-size: 2em;\n    letter-spacing: 1\n\x7d"
    bareAll (Reading.ofText (Layout.stylesheet (Reading.ofText css).trees)).trees =
        bareAll (Reading.ofText css).trees ∧
      (ofText none css .unset).result = .ok (⟨2, 3, 1⟩, out) ∧
      bareAll (Reading.ofText out).trees = bareAll
        ((Document.ofTrees none (Reading.ofText css).trees).expand .unset).document.trees ∧
      (ofText none out .unset).result = .ok (.zero, out) := by
  intro css out
  have hcss : bareAll (Reading.ofText (Layout.stylesheet (Reading.ofText css).trees)).trees =
      bareAll (Reading.ofText css).trees :=
    (bareAll_eq_iff_allSettled (Reading.orderly_ofText css).1).mpr (by decide +kernel)
  have hdone : (ofText none css .unset).result = .ok (⟨2, 3, 1⟩, out) := by decide +kernel
  obtain ⟨hiff, hagain⟩ := ofText_output none css .unset _ out hcss hdone
  have hbare := hiff.mpr (by decide +kernel)
  exact ⟨hcss, hdone, hbare, hagain hbare⟩

/-- A bracket around more than one fragment is not closed in the output, and what comes
behind it is read as a part of the first declaration. -/
theorem ofText_output_ne :
    let css := "@type (1em 2 3 4); a \x7b\x7d"
    let out := "font-size: (1em;\nline-height: 2;\nletter-spacing: 3;\na \x7b\x7d"
    bareAll (Reading.ofText (Layout.stylesheet (Reading.ofText css).trees)).trees =
        bareAll (Reading.ofText css).trees ∧
      (ofText none css .unset).result = .ok (⟨1, 3, 0⟩, out) ∧
      bareAll (Reading.ofText out).trees ≠ bareAll
        ((Document.ofTrees none (Reading.ofText css).trees).expand .unset).document.trees ∧
      (ofText none out .unset).result = .ok (.zero, out ++ ";") := by
  intro css out
  refine ⟨?_, by decide +kernel, fun heq => ?_, by decide +kernel⟩
  · exact (bareAll_eq_iff_allSettled (Reading.orderly_ofText css).1).mpr (by decide +kernel)
  · exact absurd (congrArg List.length heq) (by decide +kernel)

end Processed

end Typography
