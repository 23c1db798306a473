import Typography.Proofs.Stylesheet.Met
import Typography.Proofs.Stylesheet.Written
import Typography.Proofs.Text.Trim

/-!
# Marks that are read back

A mark is settled at its place in a layout when its own text, with the end that the
layout gives it, is read as this mark and no more is taken. Whether it is settled
depends on nothing else in the layout: a reading looks no further than the semicolon or
the curly bracket behind the mark. So a layout whose marks are all settled is read back
mark by mark, `Mark.met_written`.
-/

namespace Typography

deriving instance DecidableEq for Scan

namespace Token

theorem scanComment_cons {c : Char} {cs : List Char} (h : ∀ rest, c = '*' → cs ≠ '/' :: rest) :
    scanComment (c :: cs) = (scanComment cs).behind [c] (c :: ·) := by
  rw [scanComment]
  exact h

/-- A comment is closed at the same place whatever stands behind it. -/
theorem scanComment_congr {body rest : List Char}
    (h : scanComment (body ++ '*' :: '/' :: rest) = ⟨body ++ ['*', '/'], body, rest⟩)
    (rest' : List Char) :
    scanComment (body ++ '*' :: '/' :: rest') = ⟨body ++ ['*', '/'], body, rest'⟩ := by
  induction body with
  | nil => rfl
  | cons c body ih =>
    have hearly : ∀ cs, c = '*' → body ++ '*' :: '/' :: rest ≠ '/' :: cs := by
      rintro cs rfl heq
      rw [List.cons_append, heq, scanComment] at h
      simp at h
    have hlate : ∀ cs, c = '*' → body ++ '*' :: '/' :: rest' ≠ '/' :: cs := by
      intro cs hc heq
      cases body with
      | nil => simp at heq
      | cons c' body =>
        obtain ⟨rfl, -⟩ := List.cons.inj heq
        exact hearly _ hc rfl
    rw [List.cons_append, scanComment_cons hearly] at h
    have hinner : scanComment (body ++ '*' :: '/' :: rest) = ⟨body ++ ['*', '/'], body, rest⟩ := by
      generalize scanComment (body ++ '*' :: '/' :: rest) = s at h ⊢
      obtain ⟨lexeme, value, rest⟩ := s
      simpa [Scan.behind] using h
    rw [List.cons_append, scanComment_cons hlate, ih hinner]
    rfl

end Token

namespace Mark

open Text

variable {d : Char} {r : List Char}

theorem behindPrelude_of_ne {c : Char} (hc : c ≠ '{') (before lexeme : List Char)
    (pieces : List Piece) (cs : List Char) (withBlock : NodeKind) (outcome : Option NodeKind) :
    behindPrelude before ⟨lexeme, pieces, c :: cs⟩ withBlock outcome =
      ⟨before ++ lexeme, outcome.map leaf, c :: cs⟩ := by
  unfold behindPrelude
  split
  · simp_all
  · rfl

/-- The end of a mark that is an opening or ends with a semicolon is the end of its prelude. -/
theorem rest_eq_of_behindPrelude {before : List Char} {head : Scan (List Piece)}
    {withBlock : NodeKind} {outcome : Option NodeKind}
    (hmark : (∃ kind, (behindPrelude before head withBlock outcome).value = some (opening kind) ∧
        '{' :: (behindPrelude before head withBlock outcome).rest = d :: r) ∨
      ∃ kind, (behindPrelude before head withBlock outcome).value = some (leaf kind) ∧
        kind.needsSemicolon ∧ (behindPrelude before head withBlock outcome).rest = d :: r) :
    head.rest = d :: r := by
  rcases hmark with ⟨kind, hvalue, hrest⟩ | ⟨kind, hvalue, -, hrest⟩
  · rcases behindPrelude_cases hvalue with ⟨-, -, hhead⟩ | ⟨_, -, hleaf, -⟩
    · rw [hhead, hrest]
    · cases hleaf
  · rcases behindPrelude_cases hvalue with ⟨hopening, -⟩ | ⟨_, -, -, -, hhead⟩
    · cases hopening
    · rw [← hhead, hrest]

theorem sameBefore_of_isHard (hd : IsHard d) (u r' : List Char) :
    SameBefore (d :: r) (d :: r') (u ++ d :: r) (u ++ d :: r') :=
  .append (.same hd.isBreak r r') (.inl rfl)

/-- A token that ends before a hard character is the same whatever stands behind the
character. -/
theorem exists_alike_token (hd : IsHard d) {u : List Char} {t : Scan Token}
    (ht : Token.scan? (u ++ d :: r) = some t) (hle : (d :: r).length ≤ t.rest.length)
    (r' : List Char) :
    ∃ t', Token.scan? (u ++ d :: r') = some t' ∧ Scan.Alike (d :: r) (d :: r') t t' := by
  have hspace : ∀ {cs : List Char}, ∀ c ∈ (d :: cs).head?, isSpace c = false := by
    rintro _ _ ⟨⟩
    exact hd.isSpace_eq
  exact Token.alike_scan? (.same hd.isBreak r r') (sameBefore_of_isHard hd u r') ht
    (.of_not_space hspace hspace hle)

/-- The first token of a prelude that ends before a hard character is of the same kind
whatever stands behind the character. The prelude may be empty, and the token is the
character then. -/
theorem exists_first_token (hd : IsHard d) {inBlock : Bool} {u : List Char} {t : Scan Token}
    (ht : Token.scan? (u ++ d :: r) = some t)
    (hrest : (Prelude.scan inBlock (u ++ d :: r)).rest = d :: r) (r' : List Char) :
    ∃ t', Token.scan? (u ++ d :: r') = some t' ∧ t.value = t'.value := by
  cases hends : Prelude.endsBefore inBlock (u ++ d :: r) with
  | true =>
    rw [Prelude.scan_of_ends hends] at hrest
    obtain rfl : u = [] := List.append_left_eq_self.mp hrest
    rw [List.nil_append, Token.scan?_of_isHard hd] at ht
    exact ⟨_, Token.scan?_of_isHard hd r', (congrArg Scan.value (Option.some.inj ht)).symm⟩
  | false =>
    rw [Prelude.scan_of_token hends ht, Scan.rest_behind] at hrest
    have hinside := (splits_scanBrackets t.value.opened?.toList t.rest).length_rest_le
    have hbehind := (Prelude.splits_scan inBlock
      (scanBrackets t.value.opened?.toList t.rest).rest).length_rest_le
    rw [hrest] at hbehind
    obtain ⟨t', ht', halike⟩ := exists_alike_token hd ht (Nat.le_trans hbehind hinside) r'
    exact ⟨t', ht', halike.value_eq⟩

/-- A prelude that ends before a hard character ends there whatever stands behind the
character. -/
theorem exists_behindPrelude (hd : IsHard d) {inBlock : Bool} {u : List Char}
    {s : Scan (Option Mark)} (h : scan? inBlock (u ++ d :: r) = some s)
    (hmark : (∃ kind, s.value = some (opening kind) ∧ '{' :: s.rest = d :: r) ∨
      ∃ kind, s.value = some (leaf kind) ∧ kind.needsSemicolon ∧ s.rest = d :: r) :
    ∃ before lexeme pieces withBlock outcome, ∀ r', scan? inBlock (u ++ d :: r') =
      some (behindPrelude before ⟨lexeme, pieces, d :: r'⟩ withBlock outcome) := by
  obtain ⟨t, ht, hcases⟩ := scan?_cases h
  rcases hcases with ⟨-, rfl⟩ | ⟨body, -, rfl⟩ | ⟨-, -, rfl⟩ | ⟨name, hv, rfl⟩ | ⟨hstarts, rfl⟩
  · simp at hmark
  · rcases hmark with ⟨kind, hvalue, -⟩ | ⟨kind, hvalue, hsemicolon, -⟩
    · simp at hvalue
    · rw [Scan.value_map, Option.some.injEq, leaf.injEq] at hvalue
      rw [← hvalue] at hsemicolon
      cases hsemicolon
  · simp at hmark
  · have hrest := rest_eq_of_behindPrelude hmark
    have hle := (Prelude.splits_scan inBlock t.rest).length_rest_le
    rw [hrest] at hle
    refine ⟨t.lexeme, (Prelude.scan inBlock t.rest).lexeme, (Prelude.scan inBlock t.rest).value,
      .atRule (String.ofList name)
        (String.ofList (trim (Prelude.kept (Prelude.scan inBlock t.rest).value))) true,
      some (.atRule (String.ofList name)
        (String.ofList (trim (Prelude.kept (Prelude.scan inBlock t.rest).value))) false),
      fun r' => ?_⟩
    obtain ⟨t', ht', halike⟩ := exists_alike_token hd ht hle r'
    rw [scan?_of_atKeyword ht' (halike.value_eq ▸ hv), scanAtRule,
      Prelude.scan_eq_of_isHard hd halike.rest hrest, ← halike.lexeme_eq]
  · have hrest := rest_eq_of_behindPrelude hmark
    refine ⟨[], (Prelude.scan inBlock (u ++ d :: r)).lexeme,
      (Prelude.scan inBlock (u ++ d :: r)).value,
      .rule (String.ofList (trim (Prelude.kept (Prelude.scan inBlock (u ++ d :: r)).value))),
      (readDeclaration (Prelude.kept (Prelude.scan inBlock (u ++ d :: r)).value)).toOption,
      fun r' => ?_⟩
    obtain ⟨t', ht', hvalue⟩ := exists_first_token hd ht hrest r'
    rw [scan?_of_startsStatement ht' (hvalue ▸ hstarts), scanStatement,
      Prelude.scan_eq_of_isHard hd (sameBefore_of_isHard hd u r') hrest]

/-- A leaf that is read is a comment or ends with a semicolon. -/
theorem comment_or_needsSemicolon {inBlock : Bool} {text : List Char} {s : Scan (Option Mark)}
    {kind : NodeKind} (h : scan? inBlock text = some s) (hvalue : s.value = some (leaf kind)) :
    (∃ body, kind = .comment body) ∨ kind.needsSemicolon := by
  obtain ⟨t, ht, hcases⟩ := scan?_cases h
  rcases hcases with ⟨-, rfl⟩ | ⟨body, -, rfl⟩ | ⟨-, -, rfl⟩ | ⟨name, -, rfl⟩ | ⟨-, rfl⟩
  · simp at hvalue
  · rw [Scan.value_map, Option.some.injEq, leaf.injEq] at hvalue
    exact .inl ⟨_, hvalue.symm⟩
  · simp at hvalue
  · rcases behindPrelude_cases hvalue with ⟨hopening, -⟩ | ⟨_, hkind, hleaf, -⟩
    · cases hopening
    · rw [leaf.inj hleaf, ← Option.some.inj hkind]
      exact .inr rfl
  · rcases behindPrelude_cases hvalue with ⟨hopening, -⟩ | ⟨_, hkind, hleaf, -⟩
    · cases hopening
    · obtain ⟨property, value, important, hdeclaration⟩ :=
        Reader.ok_of_readDeclaration (ok_of_toOption hkind)
      rw [leaf.inj hleaf, hdeclaration]
      exact .inr rfl

theorem value_behindPrelude_ne_closing (before : List Char) (head : Scan (List Piece))
    (withBlock : NodeKind) (outcome : Option NodeKind) :
    (behindPrelude before head withBlock outcome).value ≠ some closing := by
  intro h
  rcases behindPrelude_cases h with ⟨hopening, -⟩ | ⟨_, -, hleaf, -⟩
  · cases hopening
  · cases hleaf

/-- A closing is met inside a block, as a curly bracket. -/
theorem of_closing {inBlock : Bool} {text : List Char} {s : Scan (Option Mark)}
    (h : scan? inBlock text = some s) (hvalue : s.value = some closing) :
    inBlock ∧ ∃ t, Token.scan? text = some t ∧ t.value = .closing .curly ∧ s.lexeme = t.lexeme ∧
      s.rest = t.rest := by
  obtain ⟨t, ht, hcases⟩ := scan?_cases h
  rcases hcases with ⟨-, rfl⟩ | ⟨_, -, rfl⟩ | ⟨hv, hin, rfl⟩ | ⟨_, -, rfl⟩ | ⟨-, rfl⟩
  · simp at hvalue
  · simp at hvalue
  · exact ⟨hin, t, ht, hv, rfl, rfl⟩
  · exact absurd hvalue (value_behindPrelude_ne_closing _ _ _ _)
  · exact absurd hvalue (value_behindPrelude_ne_closing _ _ _ _)

theorem exists_text_opening (kind : NodeKind) : ∃ u, (opening kind).text = u ++ ['{'] := by
  cases kind with
  | atRule name params hasBlock => exact ⟨atRuleHead name params ++ [' '], by simp [text]⟩
  | rule selector =>
    exact ⟨selector.toList ++ if selector.isEmpty then [] else [' '], by simp [text]⟩
  | root => exact ⟨[], rfl⟩
  | declaration property value important => exact ⟨[], rfl⟩
  | comment body => exact ⟨[], rfl⟩

end Mark

/-- A mark at its place in a layout: the open blocks before it, and whether the block
around it is closed next. -/
structure Segment where
  depth : Nat
  mark : Mark
  isLast : Bool
  deriving DecidableEq, Repr

namespace Segment

open Mark Text

/-- The new line between a mark and the end of the block around it, if this ends the
mark. -/
def gap (s : Segment) : List Char :=
  if s.mark.needsSemicolon && s.isLast then newLine (s.depth - 1) else []

/-- The character that ends a mark, if it does not end by itself. -/
def stop (s : Segment) : List Char :=
  if s.mark.needsSemicolon then [if s.isLast then '}' else ';'] else []

theorem isSpace_of_mem_gap (s : Segment) : ∀ c ∈ s.gap, isSpace c := by
  intro c hc
  unfold gap at hc
  split at hc
  · rcases List.mem_cons.mp hc with rfl | hc
    · rfl
    · rw [List.eq_of_mem_replicate hc]
      rfl
  · simp at hc

/-- The mark is what is read from its own text up to its end. -/
def Settled (s : Segment) : Prop :=
  scan? (0 < s.depth) (s.mark.text ++ s.gap ++ s.stop) =
    some ⟨s.mark.text ++ s.gap, some s.mark, s.stop⟩

instance (s : Segment) : Decidable s.Settled :=
  inferInstanceAs (Decidable (_ = _))

/-- The mark is read from its own text up to its end, in front of `rest`. -/
def ReadBefore (s : Segment) (rest : List Char) : Prop :=
  scan? (0 < s.depth) (s.mark.text ++ s.gap ++ s.stop ++ rest) =
    some ⟨s.mark.text ++ s.gap, some s.mark, s.stop ++ rest⟩

theorem settled_iff {s : Segment} : s.Settled ↔ s.ReadBefore [] := by
  rw [Settled, ReadBefore, List.append_nil, List.append_nil]

theorem settled_closing {depth : Nat} {isLast : Bool} (h : 0 < depth) :
    Settled ⟨depth, .closing, isLast⟩ := by
  have ht := Token.scan?_of_isHard (.inr (.inr rfl) : IsHard '}') []
  simp [Settled, Mark.text, gap, stop, needsSemicolon, scan?, ht, h, Token.ofChar, Scan.map]

/-- A comment that is read in front of a text is closed where its own text ends. -/
theorem ReadBefore.scanComment_eq {depth : Nat} {body : String} {isLast : Bool} {rest : List Char}
    (h : ReadBefore ⟨depth, .leaf (.comment body), isLast⟩ rest) :
    Token.scanComment (body.toList ++ '*' :: '/' :: rest) =
      ⟨body.toList ++ ['*', '/'], body.toList, rest⟩ := by
  have htoken : Token.scan? ('/' :: '*' :: (body.toList ++ '*' :: '/' :: rest)) =
      some ((Token.scanComment (body.toList ++ '*' :: '/' :: rest)).behind ['/', '*'] .comment) :=
    rfl
  have hscan := scan?_of_comment (0 < depth) htoken rfl
  have htext : (Mark.leaf (.comment body)).text ++ gap ⟨depth, .leaf (.comment body), isLast⟩ ++
      stop ⟨depth, .leaf (.comment body), isLast⟩ ++ rest =
        '/' :: '*' :: (body.toList ++ '*' :: '/' :: rest) := by
    simp [Mark.text, gap, stop, Mark.needsSemicolon, NodeKind.needsSemicolon]
  unfold ReadBefore at h
  rw [htext, hscan] at h
  generalize Token.scanComment (body.toList ++ '*' :: '/' :: rest) = s at h ⊢
  obtain ⟨lexeme, value, rest'⟩ := s
  simp only [Scan.map, Scan.behind, Mark.text, Option.some.injEq, Scan.mk.injEq, leaf.injEq,
    NodeKind.comment.injEq] at h
  obtain ⟨hlexeme, hvalue, hrest⟩ := h
  rw [← hvalue] at hlexeme ⊢
  simpa [gap, stop, Mark.needsSemicolon, NodeKind.needsSemicolon, hrest] using hlexeme

/-- A mark that is read in front of one text is read in front of any other. -/
theorem ReadBefore.congr {s : Segment} {rest : List Char} (h : s.ReadBefore rest)
    (rest' : List Char) : s.ReadBefore rest' := by
  obtain ⟨depth, mark, isLast⟩ := s
  cases mark with
  | closing =>
    have hin : 0 < depth := of_decide_eq_true (of_closing h rfl).1
    have ht := Token.scan?_of_isHard (.inr (.inr rfl) : IsHard '\x7d') rest'
    simp [ReadBefore, Mark.text, gap, stop, Mark.needsSemicolon, Mark.scan?, ht, hin, Token.ofChar,
      Scan.map]
  | opening kind =>
    obtain ⟨u, hu⟩ := exists_text_opening kind
    have hgap : gap ⟨depth, .opening kind, isLast⟩ = [] := by simp [gap, Mark.needsSemicolon]
    have hstop : stop ⟨depth, .opening kind, isLast⟩ = [] := by simp [stop, Mark.needsSemicolon]
    unfold ReadBefore at h ⊢
    rw [hgap, hstop, hu] at h ⊢
    simp only [List.append_nil, List.append_assoc, List.singleton_append, List.nil_append] at h ⊢
    obtain ⟨before, lexeme, pieces, withBlock, outcome, hscan⟩ :=
      exists_behindPrelude (.inr (.inl rfl)) h (.inl ⟨kind, rfl, rfl⟩)
    have hbehind : ∀ r', behindPrelude before ⟨lexeme, pieces, '\x7b' :: r'⟩ withBlock outcome =
        ⟨before ++ lexeme ++ ['\x7b'], some (.opening withBlock), r'⟩ := fun _ => rfl
    rw [hscan, hbehind, Option.some.injEq, Scan.mk.injEq] at h
    rw [hscan, hbehind, h.1, h.2.1]
  | leaf kind =>
    rcases comment_or_needsSemicolon h rfl with ⟨body, rfl⟩ | hsemicolon
    · have ht : Token.scan? ('/' :: '*' :: (body.toList ++ '*' :: '/' :: rest')) =
          some ((⟨body.toList ++ ['*', '/'], body.toList, rest'⟩ : Scan (List Char)).behind
            ['/', '*'] .comment) := by
        rw [← Token.scanComment_congr h.scanComment_eq]
        rfl
      have hscan := scan?_of_comment (0 < depth) ht rfl
      simpa [ReadBefore, Mark.text, gap, stop, Mark.needsSemicolon, NodeKind.needsSemicolon,
        Scan.map, Scan.behind] using hscan
    · have hd : IsHard (if isLast then '\x7d' else ';') := by
        cases isLast <;> simp [IsHard]
      have hne : (if isLast then '\x7d' else ';') ≠ '\x7b' := by
        cases isLast <;> simp
      have hstop : stop ⟨depth, .leaf kind, isLast⟩ = [if isLast then '\x7d' else ';'] := by
        simp [stop, Mark.needsSemicolon, hsemicolon]
      unfold ReadBefore at h ⊢
      rw [hstop] at h ⊢
      rw [List.append_assoc, List.singleton_append] at h ⊢
      obtain ⟨before, lexeme, pieces, withBlock, outcome, hscan⟩ := exists_behindPrelude hd h
        (.inr ⟨kind, rfl, hsemicolon, rfl⟩)
      rw [hscan, behindPrelude_of_ne hne, Option.some.injEq, Scan.mk.injEq] at h
      rw [hscan, behindPrelude_of_ne hne, h.1, h.2.1]

/-- A settled mark is read whatever stands behind it. -/
theorem Settled.readBefore {s : Segment} (h : s.Settled) (rest : List Char) : s.ReadBefore rest :=
  (settled_iff.mp h).congr rest

end Segment

namespace Mark

open Text

/-- Marks at their places, the first one inside `depth` blocks. -/
def segments (depth : Nat) : List Mark → List Segment
  | [] => []
  | mark :: marks =>
    ⟨depth, mark, marks.head? == some closing⟩ :: segments (mark.depthBehind depth) marks

/-- No block is closed that is not open. -/
def Closed (depth : Nat) : List Mark → Prop
  | [] => True
  | mark :: marks => (mark = closing → 0 < depth) ∧ Closed (mark.depthBehind depth) marks

/-- Where a closing is or comes next, a block is open. -/
theorem Closed.of_mem_segments {depth : Nat} {marks : List Mark} (h : Closed depth marks)
    {s : Segment} (hs : s ∈ segments depth marks) :
    s.mark ∈ marks ∧ (s.mark = closing → 0 < s.depth) ∧
      (s.isLast → 0 < s.mark.depthBehind s.depth) := by
  induction marks generalizing depth with
  | nil => simp [segments] at hs
  | cons mark marks ih =>
    rcases List.mem_cons.mp hs with rfl | hs
    · refine ⟨List.mem_cons_self, h.1, fun hlast => ?_⟩
      cases marks with
      | nil => simp at hlast
      | cons next marks =>
        obtain rfl : next = closing := by simpa using hlast
        exact h.2.1 rfl
    · obtain ⟨hmem, hdepth⟩ := ih h.2 hs
      exact ⟨List.mem_cons_of_mem _ hmem, hdepth⟩

/-- Whitespace makes no mark. -/
theorem met_dropWhile_isSpace (depth : Nat) (text : List Char) :
    met depth (text.dropWhile isSpace) = met depth text := by
  cases text with
  | nil => rfl
  | cons c cs =>
    by_cases hc : isSpace c
    · rw [met_of_scan? (scan?_of_skipped (Token.scan?_of_isSpace hc cs) (.inl rfl))]
      rfl
    · rw [List.dropWhile_cons_of_neg hc]

theorem met_newLine_append (depth n : Nat) (text : List Char) :
    met depth (newLine n ++ text) = met depth text := by
  have hspace : ∀ c ∈ newLine n, Text.isSpace c := by
    intro c hc
    rcases List.mem_cons.mp hc with rfl | hc
    · rfl
    · rw [List.eq_of_mem_replicate hc]
      rfl
  rw [← met_dropWhile_isSpace, List.dropWhile_append_of_pos hspace, met_dropWhile_isSpace]

/-- Behind a mark and its end there is, up to blanks and a semicolon, the rest of the layout. -/
theorem exists_tail (depth : Nat) (mark : Mark) (marks : List Mark) :
    let s : Segment := ⟨depth, mark, marks.head? == some closing⟩
    ∃ tail, written depth (mark :: marks) = s.mark.text ++ s.gap ++ s.stop ++ tail ∧
      met (mark.depthBehind depth) (s.stop ++ tail) =
        met (mark.depthBehind depth) (written (mark.depthBehind depth) marks) := by
  dsimp only
  rw [written_cons]
  cases hsemicolon : mark.needsSemicolon with
  | true =>
    have hleaf : mark.isOpening = false ∧ mark.depthBehind depth = depth := by
      cases mark <;> simp_all [needsSemicolon, isOpening, depthBehind]
    simp only [Segment.gap, Segment.stop, hsemicolon, hleaf.1, hleaf.2, Bool.true_and, if_true]
    rcases marks with _ | ⟨next, marks⟩
    · exact ⟨[], by simp [between, written], by simp [written, met_semicolon]⟩
    · cases next with
      | closing =>
        exact ⟨between false false (depth - 1) marks.head? ++ written (depth - 1) marks,
          by simp [between, written, text, depthBehind, needsSemicolon, isOpening], rfl⟩
      | leaf kind =>
        refine ⟨newLine depth ++ written depth (.leaf kind :: marks), by simp [between], ?_⟩
        exact (met_semicolon _ _).trans (met_newLine_append _ _ _)
      | opening kind =>
        refine ⟨newLine depth ++ written depth (.opening kind :: marks), by simp [between], ?_⟩
        exact (met_semicolon _ _).trans (met_newLine_append _ _ _)
  | false =>
    simp only [Segment.gap, Segment.stop, hsemicolon, Bool.false_and, Bool.false_eq_true, if_false,
      List.append_nil, List.nil_append]
    refine ⟨_, List.append_assoc _ _ _, ?_⟩
    rcases marks with _ | ⟨next, marks⟩
    · rfl
    · cases next with
      | closing =>
        cases mark.isOpening with
        | true => rfl
        | false => exact met_newLine_append _ _ _
      | leaf kind => exact met_newLine_append _ _ _
      | opening kind => exact met_newLine_append _ _ _

/-- Marks that are all settled are met in their layout. -/
theorem met_written {depth : Nat} {marks : List Mark}
    (h : ∀ s ∈ segments depth marks, s.Settled) :
    met depth (written depth marks) =
      marks ++ List.replicate (marks.foldl Mark.depthBehind depth) closing := by
  induction marks generalizing depth with
  | nil => exact met_nil depth
  | cons mark marks ih =>
    obtain ⟨tail, hwritten, hmet⟩ := exists_tail depth mark marks
    have hscan := (h _ List.mem_cons_self).readBefore tail
    rw [hwritten, met_of_scan? hscan]
    dsimp only [Option.toList, depthAfter, Option.elim]
    rw [hmet, ih fun s hs => h s (List.mem_cons_of_mem _ hs)]
    rfl

end Mark

namespace Tree

/-- As many blocks are open behind a tree as before it. -/
theorem foldl_depthBehind_marks (tree : Tree) (depth : Nat) :
    tree.marks.foldl Mark.depthBehind depth = depth := by
  induction tree using induction generalizing depth with
  | step kind span children ih =>
    have hbelow : ∀ trees : List Tree, (∀ tree ∈ trees, tree ∈ children) →
        (marksOfAll trees).foldl Mark.depthBehind (depth + 1) = depth + 1 := by
      intro trees
      induction trees with
      | nil => exact fun _ => rfl
      | cons tree trees ih' =>
        intro hmem
        rw [marksOfAll_cons, List.foldl_append, ih tree (hmem tree List.mem_cons_self),
          ih' fun t ht => hmem t (List.mem_cons_of_mem _ ht)]
    rw [marks]
    split
    · rw [List.foldl_cons, List.foldl_append, Mark.depthBehind, hbelow children fun _ => id]
      rfl
    · rfl

theorem foldl_depthBehind_marksOfAll (trees : List Tree) (depth : Nat) :
    (marksOfAll trees).foldl Mark.depthBehind depth = depth := by
  induction trees with
  | nil => rfl
  | cons tree trees ih => rw [marksOfAll_cons, List.foldl_append, foldl_depthBehind_marks, ih]

theorem closed_marks_append (tree : Tree) {depth : Nat} {marks : List Mark}
    (h : Mark.Closed depth marks) : Mark.Closed depth (tree.marks ++ marks) := by
  induction tree using induction generalizing depth marks with
  | step kind span children ih =>
    have hbelow : ∀ trees : List Tree, (∀ tree ∈ trees, tree ∈ children) →
        Mark.Closed (depth + 1) (marksOfAll trees ++ .closing :: marks) := by
      intro trees
      induction trees with
      | nil => exact fun _ => ⟨fun _ => Nat.succ_pos _, h⟩
      | cons tree trees ih' =>
        intro hmem
        rw [marksOfAll_cons, List.append_assoc]
        exact ih tree (hmem tree List.mem_cons_self)
          (ih' fun t ht => hmem t (List.mem_cons_of_mem _ ht))
    rw [Tree.marks]
    split
    · rw [List.cons_append, List.append_assoc]
      exact ⟨by simp, hbelow children fun _ => id⟩
    · exact ⟨by simp, h⟩

theorem closed_marksOfAll (trees : List Tree) : Mark.Closed 0 (marksOfAll trees) := by
  induction trees with
  | nil => trivial
  | cons tree trees ih => exact tree.closed_marks_append ih

/-- Every mark of the trees is settled at its place in their layout. -/
def AllSettled (trees : List Tree) : Prop :=
  ∀ s ∈ Mark.segments 0 (marksOfAll trees), s.Settled

instance (trees : List Tree) : Decidable (AllSettled trees) :=
  inferInstanceAs (Decidable (∀ s ∈ _, _))

/-- Settled trees are read back from their layout. -/
theorem AllSettled.bareAll_eq {trees : List Tree} (h : AllSettled trees)
    (horderly : AllOrderly trees) :
    bareAll (Reading.ofText (Layout.stylesheet trees)).trees = bareAll trees := by
  obtain ⟨hread, hmarks⟩ := Reading.orderly_ofText (Layout.stylesheet trees)
  apply bareAll_eq_of_marksOfAll_eq hread horderly
  rw [hmarks, Layout.toList_stylesheet horderly, Mark.met_written h,
    foldl_depthBehind_marksOfAll]
  exact List.append_nil _

end Tree

end Typography
