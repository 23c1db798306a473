import Typography.Proofs.Stylesheet.Kept
import Typography.Proofs.Stylesheet.Met

/-!
# The texts of rules and at-rules

A rule keeps its selector, an at-rule its parameters. Each of these texts is stored in place
of a stretch of the stylesheet, `Mark.preludes`: from the start of the rule, or from behind
the keyword of the at-rule, to its semicolon, its block, or the end of the block around it.
The text that is stored has the significant tokens of this stretch if the prelude is clean,
`Reading.significant_stored`.

Leaving a comment out may join tokens, `Reading.significant_stored_ne`: whitespace behind it
does not keep an escape from what follows, since an escape takes one whitespace along.
-/

namespace Typography

open Token (significant)

namespace Mark

/-- The selector of a rule, and the parameters of an at-rule. -/
def stored? : Mark → Option String
  | leaf (.rule selector) | opening (.rule selector) => some selector
  | leaf (.atRule _ params _) | opening (.atRule _ params _) => some params
  | _ => none

/-- The prelude of the statement at the front of a text; that of an at-rule starts behind its
keyword. -/
def prelude (inBlock : Bool) (text : List Char) : Scan (List Piece) :=
  match Token.scan? text with
  | some ⟨_, .atKeyword _, rest⟩ => Prelude.scan inBlock rest
  | _ => Prelude.scan inBlock text

/-- The preludes of the marks that `pick` picks of those that are met in a text inside `depth`
blocks. -/
def preludesOf {α : Type} (pick : Mark → Option α) (depth : Nat) (text : List Char) :
    List (Scan (List Piece)) :=
  match _h : scan? (0 < depth) text with
  | none => []
  | some s =>
    (s.value.bind pick).toList.map (fun _ => prelude (0 < depth) text) ++
      preludesOf pick (depthAfter depth s.value) s.rest
termination_by text.length
decreasing_by exact length_rest_lt_of_scan?_eq_some _h

/-- The preludes of the rules and at-rules that are met in a text inside `depth` blocks. -/
def preludes (depth : Nat) (text : List Char) : List (Scan (List Piece)) :=
  preludesOf stored? depth text

theorem prelude_of_atKeyword {inBlock : Bool} {text name : List Char} {t : Scan Token}
    (ht : Token.scan? text = some t) (h : t.value = .atKeyword name) :
    prelude inBlock text = Prelude.scan inBlock t.rest := by
  obtain ⟨lexeme, value, rest⟩ := t
  obtain rfl : value = .atKeyword name := h
  rw [prelude, ht]

theorem prelude_of_startsStatement {inBlock : Bool} {text : List Char} {t : Scan Token}
    (ht : Token.scan? text = some t) (h : startsStatement inBlock t.value) :
    prelude inBlock text = Prelude.scan inBlock text := by
  rw [prelude, ht]
  split
  · simp_all [startsStatement]
  · rfl

/-- The text that a mark stores is what is kept of its prelude, trimmed. -/
theorem toList_stored {inBlock : Bool} {text : List Char} {s : Scan (Option Mark)} {mark : Mark}
    {stored : String} (hs : scan? inBlock text = some s) (hmark : s.value = some mark)
    (hstored : mark.stored? = some stored) :
    stored.toList = Text.trim (Prelude.kept (prelude inBlock text).value) := by
  obtain ⟨t, ht, hcases⟩ := scan?_cases hs
  rcases hcases with ⟨-, rfl⟩ | ⟨body, -, rfl⟩ | ⟨-, -, rfl⟩ | ⟨name, hname, rfl⟩ | ⟨hstarts, rfl⟩
  · simp at hmark
  · obtain rfl := Option.some.inj hmark
    simp [stored?] at hstored
  · obtain rfl := Option.some.inj hmark
    simp [stored?] at hstored
  · rw [prelude_of_atKeyword ht hname]
    rcases behindPrelude_cases hmark with ⟨rfl, -⟩ | ⟨kind, hkind, rfl, -⟩
    · obtain rfl := Option.some.inj hstored
      exact String.toList_ofList
    · obtain rfl := Option.some.inj hkind
      obtain rfl := Option.some.inj hstored
      exact String.toList_ofList
  · rw [prelude_of_startsStatement ht hstarts]
    rcases behindPrelude_cases hmark with ⟨rfl, -⟩ | ⟨kind, hkind, rfl, -⟩
    · obtain rfl := Option.some.inj hstored
      exact String.toList_ofList
    · obtain ⟨property, value, important, rfl⟩ :=
        Reader.ok_of_readDeclaration (ok_of_toOption hkind)
      simp [stored?] at hstored

/-- A declaration is read from what is kept of its prelude. -/
theorem readDeclaration_of_scan? {inBlock : Bool} {text : List Char} {s : Scan (Option Mark)}
    {property value : String} {important : Bool} (hs : scan? inBlock text = some s)
    (hmark : s.value = some (leaf (.declaration property value important))) :
    readDeclaration (Prelude.kept (prelude inBlock text).value) =
      .ok (.declaration property value important) := by
  obtain ⟨t, ht, hcases⟩ := scan?_cases hs
  rcases hcases with ⟨-, rfl⟩ | ⟨body, -, rfl⟩ | ⟨-, -, rfl⟩ | ⟨name, -, rfl⟩ | ⟨hstarts, rfl⟩
  · simp at hmark
  · simp at hmark
  · simp at hmark
  · rcases behindPrelude_cases hmark with ⟨hopening, -⟩ | ⟨kind, hkind, hleaf, -⟩
    · cases hopening
    · obtain rfl := Option.some.inj hkind
      cases hleaf
  · rw [prelude_of_startsStatement ht hstarts]
    rcases behindPrelude_cases hmark with ⟨hopening, -⟩ | ⟨kind, hkind, hleaf, -⟩
    · cases hopening
    · cases hleaf
      exact ok_of_toOption hkind

/-- A prelude is read from the front of a text. -/
theorem exists_prelude (inBlock : Bool) (text : List Char) :
    ∃ rest, prelude inBlock text = Prelude.scan inBlock rest := by
  unfold prelude
  split
  · exact ⟨_, rfl⟩
  · exact ⟨_, rfl⟩

theorem preludesOf_nil {α : Type} (pick : Mark → Option α) (depth : Nat) :
    preludesOf pick depth [] = [] := by
  unfold preludesOf
  simp [scan?, Token.scan?]

theorem preludesOf_of_scan? {α : Type} (pick : Mark → Option α) {depth : Nat} {text : List Char}
    {s : Scan (Option Mark)} (h : scan? (0 < depth) text = some s) :
    preludesOf pick depth text =
      (s.value.bind pick).toList.map (fun _ => prelude (0 < depth) text) ++
        preludesOf pick (depthAfter depth s.value) s.rest := by
  rw [preludesOf]
  split
  · simp_all
  · simp_all

/-- What is picked of the marks that are met belongs to their preludes, one to each. -/
theorem forall₂_met {α : Type} {pick : Mark → Option α} (hclosing : pick closing = none)
    {R : α → Scan (List Piece) → Prop}
    (h : ∀ {inBlock : Bool} {text : List Char} {s : Scan (Option Mark)} {mark : Mark} {a : α},
      scan? inBlock text = some s → s.value = some mark → pick mark = some a →
        R a (prelude inBlock text)) (depth : Nat) (text : List Char) :
    List.Forall₂ R ((met depth text).filterMap pick) (preludesOf pick depth text) := by
  fun_induction met depth text with
  | case1 depth text hnone =>
    obtain rfl := scan?_eq_none_iff.mp hnone
    rw [preludesOf_nil, List.filterMap_replicate_of_none hclosing]
    exact .nil
  | case2 depth text s hs ih =>
    rw [List.filterMap_append, preludesOf_of_scan? pick hs]
    refine List.rel_append ?_ ih
    cases hvalue : s.value with
    | none => exact .nil
    | some mark =>
      cases hpick : pick mark with
      | none => simp [hpick]
      | some a =>
        rw [Option.toList_some, List.filterMap_cons, hpick, Option.bind_some, hpick]
        exact .cons (h hs hvalue hpick) .nil

end Mark

namespace Reading

/-- Each text that is stored for a rule or an at-rule of a stylesheet has the significant
tokens of the stretch that it is stored for, if the prelude is clean. -/
theorem significant_stored (css : String) :
    List.Forall₂
      (fun stored head => Prelude.IsClean head →
        significant stored.toList = significant head.lexeme)
      ((Tree.marksOfAll (ofText css).trees).filterMap Mark.stored?)
      (Mark.preludes 0 css.toList) := by
  rw [(orderly_ofText css).2]
  refine Mark.forall₂_met rfl (fun {inBlock text} _ _ _ hs hvalue hstored hclean => ?_) 0 _
  obtain ⟨rest, hrest⟩ := Mark.exists_prelude inBlock text
  have htext := Mark.toList_stored hs hvalue hstored
  rw [hrest] at htext hclean ⊢
  rw [htext, Prelude.significant_trim_kept hclean]

/-- Loose comments that are left out next to whitespace and at an end, and the blank of an
escape at the end of a selector. -/
theorem significant_stored_ofLooseComments :
    let css := "@media/* x */ (a) \x7b a /* y */, b/**/#\\31 \x7b\x7d \x7d"
    ∃ head head', Mark.preludes 0 css.toList = [head, head'] ∧
      Prelude.IsClean head ∧ significant "(a)".toList = significant head.lexeme ∧
      Prelude.IsClean head' ∧ significant "a , b/**/#\\31".toList = significant head'.lexeme := by
  intro css
  have hstored : (Tree.marksOfAll (ofText css).trees).filterMap Mark.stored? =
      ["(a)", "a , b/**/#\\31"] := by decide +kernel
  have hclean : ∀ head ∈ Mark.preludes 0 css.toList, Prelude.IsClean head := by decide +kernel
  have h := significant_stored css
  rw [hstored] at h
  generalize Mark.preludes 0 css.toList = heads at h hclean
  rcases h with _ | ⟨hfirst, _ | ⟨hsecond, _ | _⟩⟩
  have hclean₁ := hclean _ List.mem_cons_self
  have hclean₂ := hclean _ (List.mem_cons_of_mem _ List.mem_cons_self)
  exact ⟨_, _, rfl, hclean₁, hfirst hclean₁, hclean₂, hsecond hclean₂⟩

/-- A comment between an escape and whitespace is left out, and the escape takes the
whitespace along and goes on with what follows: two names become one. -/
theorem significant_stored_ne :
    let css := "\\41/**/ b \x7b\x7d"
    (Tree.marksOfAll (ofText css).trees).filterMap Mark.stored? = ["\\41 b"] ∧
      (Mark.preludes 0 css.toList).map Scan.lexeme = ["\\41/**/ b ".toList] ∧
      significant "\\41/**/ b ".toList = [.identifier ['A'], .identifier ['b']] ∧
      significant "\\41 b".toList = [.identifier ['A', 'b']] := by
  decide +kernel

end Reading

end Typography
