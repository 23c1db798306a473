import Mathlib.Data.List.Infix
import Typography.Proofs.Stylesheet.Important
import Typography.Proofs.Stylesheet.Settled
import Typography.Proofs.Stylesheet.Tame

/-!
# Plain nodes

The texts of a node may be anything, and most of what may stand in them changes what a
layout says: a quote, a bracket that is not closed, a semicolon. A node is plain if it
has none of these. What is written of a plain node is read up to its end.
-/

namespace Typography

namespace Text

/-- A character of a plain text: a printable one of ASCII or one outside ASCII, but no
quote, no backslash, no semicolon and no curly bracket. -/
def isPlain (c : Char) : Bool :=
  ((' ' ≤ c && c ≤ '~') || 0x80 ≤ c.toNat) && isTame c

/-- A text that says the same wherever it is written. -/
def IsPlain (text : String) : Prop :=
  (∀ c ∈ text.toList, isPlain c) ∧ IsTrimmed text.toList ∧ IsNested text.toList ∧
    ¬['/', '*'] <:+: text.toList

end Text

/-- A name that needs no escape. -/
def Name.IsPlain (name : String) : Prop :=
  (∀ c ∈ name.toList, c.isAlphanum ∨ c = '_' ∨ c = '-') ∧
    ∃ c ∈ name.toList.head?, c.isAlpha ∨ c = '_'

/-- A kind of node with plain texts. -/
def NodeKind.IsPlain : NodeKind → Prop
  | root => False
  | atRule name params _ => Name.IsPlain name ∧ Text.IsPlain params
  | rule selector => Text.IsPlain selector ∧ selector.toList.head? ≠ some '@'
  | declaration property value important =>
    (Text.IsPlain property ∧ property ≠ "" ∧ property.toList.head? ≠ some '@' ∧
      ':' ∉ property.toList) ∧
    Text.IsPlain value ∧ (important = false → ¬importantFlag <:+ value.toList.map Char.toLower)
  | comment text => ¬['*', '/'] <:+: text.toList

instance (text : String) : Decidable (Text.IsPlain text) :=
  have : Decidable (∀ c ∈ text.toList, Text.isPlain c) := List.decidableBAll _ _
  inferInstanceAs (Decidable (_ ∧ _ ∧ _ = _ ∧ _))

instance (name : String) : Decidable (Name.IsPlain name) :=
  have : Decidable (∀ c ∈ name.toList, c.isAlphanum ∨ c = '_' ∨ c = '-') := List.decidableBAll _ _
  have : Decidable (∃ c ∈ name.toList.head?, c.isAlpha ∨ c = '_') := Option.decidableExistsMem _
  inferInstanceAs (Decidable (_ ∧ _))

instance : DecidablePred NodeKind.IsPlain
  | .root => inferInstanceAs (Decidable False)
  | .atRule .. => inferInstanceAs (Decidable (_ ∧ _))
  | .rule _ => inferInstanceAs (Decidable (_ ∧ _))
  | .declaration .. => inferInstanceAs (Decidable ((_ ∧ _ ∧ _ ∧ _) ∧ _ ∧ _))
  | .comment _ => inferInstanceAs (Decidable (¬_))

namespace Text

theorem isTame_of_no_opening {cs : List Char} (h : ∀ c ∈ cs, isTame c)
    (hcomment : ¬['/', '*'] <:+: cs) : IsTame cs := by
  refine ⟨h, List.isChain_iff_forall_rel_of_append_cons_cons.mpr ?_⟩
  rintro c c' before behind rfl ⟨rfl, rfl⟩
  exact hcomment ⟨before, behind, by simp⟩

theorem IsPlain.isTame {text : String} (h : IsPlain text) : IsTame text.toList :=
  isTame_of_no_opening (fun c hc => (Bool.and_eq_true_iff.mp (h.1 c hc)).2) h.2.2.2

theorem IsPlain.isSpace_eq {text : String} (h : IsPlain text) :
    ∀ c ∈ text.toList.head?, isSpace c = false := by
  intro c hc
  cases hspace : isSpace c with
  | false => rfl
  | true =>
    have := isBlank_of_isSpace hspace
    rw [h.2.1.1 c hc] at this
    cases this

theorem isTame_of_isSpace {g : List Char} (hg : ∀ c ∈ g, isSpace c) : IsTame g := by
  refine isTame_of_no_opening (fun c hc => ?_) fun hcomment => ?_
  · have := hg c hc
    simp only [isSpace, isLineBreak, Bool.or_eq_true, beq_iff_eq] at this
    rcases this with (rfl | rfl) | (rfl | rfl) | rfl <;> rfl
  · have := hg '/' (hcomment.subset List.mem_cons_self)
    cases this

/-- Tame texts stand side by side, if no comment starts between them. -/
theorem IsTame.append {u v : List Char} (hu : IsTame u) (hv : IsTame v)
    (h : ∀ c ∈ u.getLast?, ∀ c' ∈ v.head?, ¬(c = '/' ∧ c' = '*')) : IsTame (u ++ v) :=
  ⟨fun c hc => (List.mem_append.mp hc).elim (hu.chars c) (hv.chars c),
    hu.noComment.append hv.noComment h⟩

theorem IsNested.append {u v : List Char} (hu : IsNested u) (hv : IsNested v) :
    IsNested (u ++ v) := by
  rw [IsNested, openBehind_append, hu]
  exact hv

theorem isNested_of_isSpace {g : List Char} (hg : ∀ c ∈ g, isSpace c) : IsNested g := by
  refine openBehind_of_not_bracket (fun c hc hbracket => ?_) []
  have := hg c hc
  simp only [IsBracket, List.mem_cons, List.not_mem_nil, or_false] at hbracket
  rcases hbracket with rfl | rfl | rfl | rfl <;> cases this

theorem not_isPart_of_isSpace {c : Char} (h : isSpace c) : Name.isPart c = false ∧ c ≠ '\\' := by
  simp only [isSpace, isLineBreak, Bool.or_eq_true, beq_iff_eq] at h
  rcases h with (rfl | rfl) | (rfl | rfl) | rfl <;> decide

end Text

variable {d : Char} {r u g : List Char}

open Text

namespace Token

theorem isPart_of_isPlain {name : String} (h : Name.IsPlain name) :
    ∀ c ∈ name.toList, Name.isPart c := by
  intro c hc
  rcases h.1 c hc with h | rfl | rfl
  · simp only [Char.isAlphanum, Bool.or_eq_true] at h
    rcases h with h | h <;> simp [Name.isPart, Name.isStart, h]
  · rfl
  · rfl

/-- A plain name behind `@` is a keyword in front of whitespace or the end of a statement. -/
theorem scan?_atKeyword {name : String} (h : Name.IsPlain name) {c : Char}
    (hc : Name.isPart c = false) (hb : c ≠ '\\') (cs : List Char) :
    scan? ('@' :: (name.toList ++ c :: cs)) =
      some ⟨'@' :: name.toList, .atKeyword name.toList, c :: cs⟩ := by
  have hpart := isPart_of_isPlain h
  have hmem : '\\' ∉ name.toList := fun hmem => by cases hpart _ hmem
  have hscan := Name.scan_append (r := cs) hc hb hmem
  rw [List.takeWhile_eq_self_iff.mpr hpart, List.dropWhile_eq_nil_iff.mpr hpart] at hscan
  have hshown : name.toList.map Escape.shown = name.toList := by
    refine List.map_congr_left (fun c hc => ?_) |>.trans (List.map_id _)
    have : c ≠ '\u0000' := by
      rintro rfl
      rcases h.1 _ hc with h | h | h <;> cases h
    rw [Escape.shown, if_neg this, id]
  have hstarts : Name.starts (name.toList ++ c :: cs) := by
    obtain ⟨first, hfirst, hstart⟩ := h.2
    obtain ⟨others, hothers⟩ := List.head?_eq_some_iff.mp hfirst
    rw [hothers]
    unfold Name.starts
    split
    · simp_all
    · simp_all
    · rename_i heq
      obtain ⟨rfl, -⟩ := List.cons.inj heq
      rcases hstart with hstart | rfl
      · simp [Name.isStart, hstart]
      · rfl
    · simp_all
  have hextent : Numeric.extent ('@' :: (name.toList ++ c :: cs)) = [] := by
    simp [Numeric.extent, Numeric.sign, Numeric.digits, Numeric.fraction]
  have hname : Name.starts ('@' :: (name.toList ++ c :: cs)) = false := rfl
  rw [scan?_cons (by simp) (by simp) (by simp), scanFirst, if_neg (by decide),
    if_neg (by decide), if_neg (by simp [hextent]), if_neg (by simp [hname]),
    scanSign_of_at (by simp) ⟨rfl, hstarts⟩, hscan, hshown]
  rfl

theorem startsStatement_ofChar {c : Char} (hc : isTame c) (inBlock : Bool) :
    Mark.startsStatement inBlock (ofChar c) := by
  unfold ofChar
  split <;> try trivial
  unfold Mark.startsStatement
  split <;> simp_all [isTame]

theorem startsStatement_of_isWord {token : Token} (h : token.isWord) (inBlock : Bool) :
    Mark.startsStatement inBlock token := by
  cases token <;> trivial

/-- The first token of tame text starts a statement, unless it is whitespace or a keyword. -/
theorem startsStatement_of_inside {c : Char} {cs : List Char} {t : Scan Token}
    (ht : scan? (c :: cs) = some t) (hc : isTame c) (hspace : isSpace c = false) (hat : c ≠ '@')
    (hcomment : ∀ body, t.value ≠ .comment body) (inBlock : Bool) :
    Mark.startsStatement inBlock t.value := by
  rcases scan?_cases ht with ⟨cs, -, rfl⟩ | hmarkup | hmarkup | ⟨c', cs', heq, rfl⟩
  · exact absurd rfl (hcomment _)
  · rw [hmarkup]
    trivial
  · rw [hmarkup]
    trivial
  · obtain ⟨rfl, rfl⟩ := List.cons.inj heq
    rcases scanFirst_cases c cs with ⟨hc', -⟩ | ⟨hc', -⟩ | hv | hv
    · rw [hspace] at hc'
      cases hc'
    · exact absurd hc' hat
    · rw [hv]
      exact startsStatement_ofChar hc inBlock
    · exact startsStatement_of_isWord hv inBlock

end Token

namespace Mark

/-- Between the name and the parameters of an at-rule is whitespace, if there are parameters. -/
theorem exists_atRuleHead_eq (name params : String) :
    ∃ blank, (∀ c ∈ blank, isSpace c) ∧ (blank = [] → params.toList = []) ∧
      atRuleHead name params = '@' :: (name.toList ++ (blank ++ params.toList)) := by
  cases hempty : params.isEmpty with
  | true =>
    have hparams : params.toList = [] := by rw [String.isEmpty_iff.mp hempty]; rfl
    exact ⟨[], by simp, fun _ => hparams, by simp [atRuleHead, hempty, hparams]⟩
  | false =>
    refine ⟨[' '], fun c hc => ?_, by simp, by simp [atRuleHead, hempty]⟩
    rw [List.mem_singleton.mp hc]
    rfl

/-- What stands behind the name of an at-rule does not go on with the name. -/
theorem exists_behind_name {blank params : List Char} (hblank : ∀ c ∈ blank, isSpace c)
    (hparams : blank = [] → params = []) (hg : ∀ c ∈ g, isSpace c) (hd : IsHard d) :
    ∃ c cs, blank ++ (params ++ g) ++ d :: r = c :: cs ∧ Name.isPart c = false ∧ c ≠ '\\' := by
  cases blank with
  | cons c blank => exact ⟨c, _, rfl, not_isPart_of_isSpace (hblank c List.mem_cons_self)⟩
  | nil =>
    rw [hparams rfl]
    cases g with
    | nil => exact ⟨d, r, rfl, hd.isPart_eq, hd.ne (by decide)⟩
    | cons c g => exact ⟨c, _, rfl, not_isPart_of_isSpace (hg c List.mem_cons_self)⟩

/-- An at-rule with plain texts is read up to its end. -/
theorem scan?_atRule (inBlock : Bool) {name params : String} (hname : Name.IsPlain name)
    (hparams : Text.IsPlain params) (hg : ∀ c ∈ g, isSpace c) (hd : IsHard d)
    (hends : Prelude.endsBefore inBlock (d :: r)) :
    ∃ before lexeme pieces, before ++ lexeme = atRuleHead name params ++ g ∧
      scan? inBlock (atRuleHead name params ++ g ++ d :: r) =
        some (behindPrelude before ⟨lexeme, pieces, d :: r⟩ (.atRule name params true)
          (some (.atRule name params false))) := by
  obtain ⟨blank, hblank, hempty, hhead⟩ := exists_atRuleHead_eq name params
  have hparamsTame : IsTame (params.toList ++ g) := by
    apply hparams.isTame.append (isTame_of_isSpace hg)
    rintro c - c' hc' ⟨-, rfl⟩
    cases hg '*' (List.mem_of_mem_head? hc')
  have htame : IsTame (blank ++ (params.toList ++ g)) := by
    apply (isTame_of_isSpace hblank).append hparamsTame
    rintro c hc c' - ⟨rfl, -⟩
    cases hblank '/' (List.mem_of_getLast? hc)
  have hnested : IsNested (blank ++ (params.toList ++ g)) :=
    (isNested_of_isSpace hblank).append (hparams.2.2.1.append (isNested_of_isSpace hg))
  obtain ⟨pieces, hscan, hkept⟩ := Prelude.exists_scan_append (r := r) hd hends htame hnested
  have htrim : trim (blank ++ (params.toList ++ g)) = params.toList :=
    hparams.2.1.trim_append (fun c hc => isBlank_of_isSpace (hblank c hc))
      fun c hc => isBlank_of_isSpace (hg c hc)
  obtain ⟨c, cs, hbehind, hpart, hslash⟩ := exists_behind_name (r := r) hblank hempty hg hd
  have ht := Token.scan?_atKeyword hname hpart hslash cs
  rw [← hbehind] at ht
  refine ⟨'@' :: name.toList, blank ++ (params.toList ++ g), pieces, by simp [hhead], ?_⟩
  have htext : atRuleHead name params ++ g ++ d :: r =
      '@' :: (name.toList ++ (blank ++ (params.toList ++ g) ++ d :: r)) := by simp [hhead]
  rw [htext, scan?_of_atKeyword ht rfl, scanAtRule, hscan, hkept, htrim, String.ofList_toList,
    String.ofList_toList]

/-- Tame text that starts like a statement is read up to its end. -/
theorem scan?_tame (inBlock : Bool) (hd : IsHard d) (hends : Prelude.endsBefore inBlock (d :: r))
    (hu : IsTame u) (hnested : IsNested u) (hne : u ≠ [])
    (hfirst : ∀ c ∈ u.head?, isSpace c = false ∧ c ≠ '@') :
    ∃ pieces, scan? inBlock (u ++ d :: r) =
      some (behindPrelude [] ⟨u, pieces, d :: r⟩ (.rule (String.ofList (trim u)))
        (readDeclaration u).toOption) := by
  obtain ⟨pieces, hscan, hkept⟩ := Prelude.exists_scan_append hd hends hu hnested
  obtain ⟨t, ht, hinside⟩ := Token.exists_inside (r := r) hd hu hne hnested
  obtain ⟨c, v, rfl⟩ := List.exists_cons_of_ne_nil hne
  have hstarts := Token.startsStatement_of_inside ht (hu.chars c List.mem_cons_self)
    (hfirst c rfl).1 (hfirst c rfl).2 hinside.not_comment inBlock
  refine ⟨pieces, ?_⟩
  rw [scan?_of_startsStatement ht hstarts, scanStatement, hscan, hkept]

/-- A declaration with plain texts is what the text of its mark says. -/
theorem readDeclaration_text {property value : String} {important : Bool}
    (h : (NodeKind.declaration property value important).IsPlain) (hg : ∀ c ∈ g, isSpace c) :
    readDeclaration ((leaf (.declaration property value important)).text ++ g) =
      .ok (.declaration property value important) := by
  obtain ⟨⟨hproperty, hne, -, hcolon⟩, hvalue, hflag⟩ := h
  exact readDeclaration_of_isNormal hproperty.2.1 hne hcolon ⟨hvalue.2.1, hflag⟩
    fun c hc => isBlank_of_isSpace (hg c hc)

theorem isTame_flag (important : Bool) : IsTame (flag important) ∧ IsNested (flag important) := by
  cases important with
  | false => exact ⟨isTame_of_no_opening (by simp [flag]) (by simp [flag]), rfl⟩
  | true =>
    rw [flag_true, importantFlag_eq]
    exact ⟨isTame_of_no_opening (List.all_eq_true.mp rfl) (by decide), rfl⟩

theorem isTame_declaration {property value : String} {important : Bool}
    (h : (NodeKind.declaration property value important).IsPlain) (hg : ∀ c ∈ g, isSpace c) :
    IsTame ((leaf (.declaration property value important)).text ++ g) ∧
      IsNested ((leaf (.declaration property value important)).text ++ g) := by
  obtain ⟨⟨hproperty, -, -, -⟩, hvalue, -⟩ := h
  obtain ⟨hflag, hflag'⟩ := isTame_flag important
  have hcolon : IsTame [':', ' '] := isTame_of_no_opening (List.all_eq_true.mp rfl) (by decide)
  have hend : IsTame (flag important ++ g) := by
    apply hflag.append (isTame_of_isSpace hg)
    rintro c - c' hc' ⟨-, rfl⟩
    cases hg '*' (List.mem_of_mem_head? hc')
  have hvalueEnd : IsTame (value.toList ++ (flag important ++ g)) := by
    apply hvalue.isTame.append hend
    rintro c - c' hc' ⟨-, rfl⟩
    cases important with
    | false => cases hg '*' (List.mem_of_mem_head? hc')
    | true => simp [flag_true] at hc'
  have hbehind : IsTame ([':', ' '] ++ (value.toList ++ (flag important ++ g))) := by
    apply hcolon.append hvalueEnd
    rintro c hc c' - ⟨rfl, -⟩
    simp at hc
  rw [text_declaration_append]
  constructor
  · apply hproperty.isTame.append hbehind
    rintro c - c' hc' ⟨-, rfl⟩
    simp at hc'
  · exact hproperty.2.2.1.append (IsNested.append (u := [':', ' ']) rfl
      (hvalue.2.2.1.append (hflag'.append (isNested_of_isSpace hg))))

/-- A text is no comment that is closed too early. -/
theorem scanComment_of_no_closing {body : List Char} (h : ¬['*', '/'] <:+: body) :
    Token.scanComment (body ++ ['*', '/']) = ⟨body ++ ['*', '/'], body, []⟩ := by
  induction body with
  | nil => rfl
  | cons c body ih =>
    have hbody : ¬['*', '/'] <:+: body := fun hbody => h (List.infix_cons hbody)
    rw [List.cons_append, Token.scanComment_cons, ih hbody]
    · rfl
    · rintro rest rfl heq
      cases body with
      | nil => simp at heq
      | cons c' body =>
        obtain ⟨rfl, -⟩ := List.cons.inj heq
        exact h ⟨[], body, rfl⟩

end Mark

end Typography
