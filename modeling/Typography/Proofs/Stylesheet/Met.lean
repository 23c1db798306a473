import Typography.Proofs.Stylesheet.Declaration
import Typography.Proofs.Stylesheet.Locality
import Typography.Proofs.Stylesheet.Mark

/-!
# Reading as marks

What reading makes of a text, without positions and without warnings: the marks that
are met from the front of the text to its end. `Mark.scan?` meets the next mark, or
passes over something that makes none, and looks at no more of the reader than
whether it is in a block. The marks of the trees that are read from a text are those
met in it, `Reading.orderly_ofText`.
-/

namespace Typography

theorem ok_of_toOption {ε α : Type} {e : Except ε α} {a : α} (h : e.toOption = some a) :
    e = .ok a := by
  cases e with
  | error _ => simp [Except.toOption] at h
  | ok _ => rw [Option.some.inj h]

namespace Mark

/-- The end of a prelude: the opening of a block, which belongs to the mark, or the
end of a statement, which is left. -/
def behindPrelude (before : List Char) (head : Scan (List Piece)) (withBlock : NodeKind)
    (outcome : Option NodeKind) : Scan (Option Mark) :=
  match head.rest with
  | '{' :: rest => ⟨before ++ head.lexeme ++ ['{'], some (opening withBlock), rest⟩
  | rest => ⟨before ++ head.lexeme, outcome.map leaf, rest⟩

/-- Reads an at-rule from behind its name. -/
def scanAtRule (inBlock : Bool) (t : Scan Token) (name : List Char) : Scan (Option Mark) :=
  let head := Prelude.scan inBlock t.rest
  let params := String.ofList (Text.trim (Prelude.kept head.value))
  behindPrelude t.lexeme head (.atRule (String.ofList name) params true)
    (some (.atRule (String.ofList name) params false))

/-- Reads a rule or a declaration. -/
def scanStatement (inBlock : Bool) (text : List Char) : Scan (Option Mark) :=
  let head := Prelude.scan inBlock text
  let kept := Prelude.kept head.value
  behindPrelude [] head (.rule (String.ofList (Text.trim kept))) (readDeclaration kept).toOption

/-- Reads the next item, which may make no mark. -/
def scan? (inBlock : Bool) (text : List Char) : Option (Scan (Option Mark)) :=
  (Token.scan? text).map fun t =>
    match t.value with
    | .space | .delimiter ';' => t.map fun _ => none
    | .comment body => t.map fun _ => some (leaf (.comment (String.ofList body)))
    | .atKeyword name => scanAtRule inBlock t name
    | .closing .curly => if inBlock then t.map fun _ => some closing else scanStatement inBlock text
    | _ => scanStatement inBlock text

/-- Whether a token starts a rule or a declaration. -/
def startsStatement (inBlock : Bool) : Token → Prop
  | .space | .delimiter ';' | .comment _ | .atKeyword _ => False
  | .closing .curly => inBlock = false
  | _ => True

theorem scan?_of_startsStatement {inBlock : Bool} {text : List Char} {t : Scan Token}
    (ht : Token.scan? text = some t) (h : startsStatement inBlock t.value) :
    scan? inBlock text = some (scanStatement inBlock text) := by
  rw [scan?, ht, Option.map_some]
  unfold startsStatement at h
  split at h <;> simp_all

theorem scan?_of_atKeyword {inBlock : Bool} {text name : List Char} {t : Scan Token}
    (ht : Token.scan? text = some t) (h : t.value = .atKeyword name) :
    scan? inBlock text = some (scanAtRule inBlock t name) := by
  rw [scan?, ht, Option.map_some, h]

theorem scan?_of_comment (inBlock : Bool) {text body : List Char} {t : Scan Token}
    (ht : Token.scan? text = some t) (h : t.value = .comment body) :
    scan? inBlock text = some (t.map fun _ => some (leaf (.comment (String.ofList body)))) := by
  rw [scan?, ht, Option.map_some, h]

/-- Inside a block a curly bracket closes it. -/
theorem scan?_of_closing {inBlock : Bool} (hin : inBlock) {text : List Char} {t : Scan Token}
    (ht : Token.scan? text = some t) (h : t.value = .closing .curly) :
    scan? inBlock text = some (t.map fun _ => some closing) := by
  rw [scan?, ht, Option.map_some, h]
  exact congrArg some (if_pos hin)

/-- Whitespace and semicolons between statements make no mark. -/
theorem scan?_of_skipped {inBlock : Bool} {text : List Char} {t : Scan Token}
    (ht : Token.scan? text = some t) (h : t.value = .space ∨ t.value = .delimiter ';') :
    scan? inBlock text = some (t.map fun _ => none) := by
  rcases h with h | h
  · rw [scan?, ht, Option.map_some, h]
  · rw [scan?, ht, Option.map_some, h]
    rfl

/-- What an item is. -/
theorem scan?_cases {inBlock : Bool} {text : List Char} {s : Scan (Option Mark)}
    (h : scan? inBlock text = some s) :
    ∃ t, Token.scan? text = some t ∧
      (((t.value = .space ∨ t.value = .delimiter ';') ∧ s = t.map fun _ => none) ∨
        (∃ body, t.value = .comment body ∧
          s = t.map fun _ => some (leaf (.comment (String.ofList body)))) ∨
        (t.value = .closing .curly ∧ inBlock ∧ s = t.map fun _ => some closing) ∨
        (∃ name, t.value = .atKeyword name ∧ s = scanAtRule inBlock t name) ∨
        (startsStatement inBlock t.value ∧ s = scanStatement inBlock text)) := by
  obtain ⟨t, ht, rfl⟩ := Option.map_eq_some_iff.mp h
  refine ⟨t, ht, ?_⟩
  split
  · exact .inl ⟨.inl ‹_›, rfl⟩
  · exact .inl ⟨.inr ‹_›, rfl⟩
  · exact .inr (.inl ⟨_, ‹_›, rfl⟩)
  · exact .inr (.inr (.inr (.inl ⟨_, ‹_›, rfl⟩)))
  · rename_i hv
    cases hin : inBlock with
    | true => exact .inr (.inr (.inl ⟨hv, rfl, rfl⟩))
    | false => exact .inr (.inr (.inr (.inr ⟨by rw [hv]; rfl, rfl⟩)))
  · refine .inr (.inr (.inr (.inr ⟨?_, rfl⟩)))
    unfold startsStatement
    split <;> simp_all

/-- What an end of a prelude makes of it. -/
theorem behindPrelude_cases {before : List Char} {head : Scan (List Piece)} {withBlock : NodeKind}
    {outcome : Option NodeKind} {mark : Mark}
    (h : (behindPrelude before head withBlock outcome).value = some mark) :
    let s := behindPrelude before head withBlock outcome
    (mark = opening withBlock ∧ s.lexeme = before ++ head.lexeme ++ ['{'] ∧
        head.rest = '{' :: s.rest) ∨
      ∃ kind, outcome = some kind ∧ mark = leaf kind ∧ s.lexeme = before ++ head.lexeme ∧
        s.rest = head.rest := by
  unfold behindPrelude at h ⊢
  split
  · rename_i rest hrest
    rw [hrest] at h
    exact .inl ⟨(Option.some.inj h).symm, rfl, hrest⟩
  · rename_i hrest
    split at h
    · exact absurd ‹_› (hrest _)
    · obtain ⟨kind, hkind, hmark⟩ := Option.map_eq_some_iff.mp h
      exact .inr ⟨kind, hkind, hmark.symm, rfl, rfl⟩

theorem splits_behindPrelude (before : List Char) {text : List Char} {head : Scan (List Piece)}
    (h : head.Splits text) (withBlock : NodeKind) (outcome : Option NodeKind) :
    (behindPrelude before head withBlock outcome).Splits (before ++ text) := by
  unfold behindPrelude
  split
  · rename_i rest hrest
    rw [Scan.Splits, hrest] at h
    simp [Scan.Splits, ← h]
  · rw [Scan.Splits, List.append_assoc, h]

theorem splits_scanAtRule {inBlock : Bool} {text : List Char} {t : Scan Token}
    (ht : t.Splits text) (name : List Char) : (scanAtRule inBlock t name).Splits text := by
  have := splits_behindPrelude t.lexeme (Prelude.splits_scan inBlock t.rest)
    (.atRule (String.ofList name)
      (String.ofList (Text.trim (Prelude.kept (Prelude.scan inBlock t.rest).value))) true)
    (some (.atRule (String.ofList name)
      (String.ofList (Text.trim (Prelude.kept (Prelude.scan inBlock t.rest).value))) false))
  rwa [ht] at this

theorem splits_scanStatement (inBlock : Bool) (text : List Char) :
    (scanStatement inBlock text).Splits text :=
  splits_behindPrelude [] (Prelude.splits_scan inBlock text) _ _

/-- An item and the rest make up the text. -/
theorem splits_of_scan?_eq_some {inBlock : Bool} {text : List Char} {s : Scan (Option Mark)}
    (h : scan? inBlock text = some s) : s.Splits text := by
  obtain ⟨t, ht, hcases⟩ := scan?_cases h
  have hsplits := Token.splits_of_scan?_eq_some ht
  rcases hcases with ⟨-, rfl⟩ | ⟨_, -, rfl⟩ | ⟨-, -, rfl⟩ | ⟨_, -, rfl⟩ | ⟨-, rfl⟩
  · exact hsplits
  · exact hsplits
  · exact hsplits
  · exact splits_scanAtRule hsplits _
  · exact splits_scanStatement inBlock text

theorem lexeme_behindPrelude_ne_nil {before : List Char} {head : Scan (List Piece)}
    (h : before ≠ [] ∨ head.lexeme ≠ [] ∨ ∃ rest, head.rest = '{' :: rest) (withBlock : NodeKind)
    (outcome : Option NodeKind) :
    (behindPrelude before head withBlock outcome).lexeme ≠ [] := by
  unfold behindPrelude
  split
  · simp
  · rename_i hrest
    rcases h with h | h | ⟨rest, h⟩
    · simp [h]
    · simp [h]
    · exact absurd h (hrest rest)

/-- A statement takes a character away, unless its end comes at once. -/
theorem lexeme_scanStatement_ne_nil {inBlock : Bool} {text : List Char} {t : Scan Token}
    (ht : Token.scan? text = some t) (hsemi : t.value ≠ .delimiter ';')
    (hcurly : inBlock → t.value ≠ .closing .curly) :
    (scanStatement inBlock text).lexeme ≠ [] := by
  obtain ⟨c, cs, rfl⟩ := List.exists_cons_of_ne_nil
    (fun hnil => by simp [Token.scan?_eq_none_iff.mpr hnil] at ht : text ≠ [])
  apply lexeme_behindPrelude_ne_nil
  by_cases hopen : c = '{'
  · subst hopen
    refine .inr (.inr ⟨cs, ?_⟩)
    unfold Prelude.scan
    simp [Prelude.endsBefore]
  · refine .inr (.inl (Prelude.lexeme_scan_ne_nil ?_))
    have hc : c ≠ ';' := by
      rintro rfl
      exact hsemi (Reader.value_eq_ofChar_of_scan? (.inl rfl) ht)
    have hc' : inBlock = true → c ≠ '}' := by
      rintro hin rfl
      exact hcurly hin (Reader.value_eq_ofChar_of_scan? (.inr rfl) ht)
    simpa [Prelude.endsBefore, hc, hopen] using hc'

/-- No item is empty. -/
theorem lexeme_ne_nil_of_scan?_eq_some {inBlock : Bool} {text : List Char}
    {s : Scan (Option Mark)} (h : scan? inBlock text = some s) : s.lexeme ≠ [] := by
  obtain ⟨t, ht, hcases⟩ := scan?_cases h
  have hne := Token.lexeme_ne_nil_of_scan?_eq_some ht
  rcases hcases with ⟨-, rfl⟩ | ⟨_, -, rfl⟩ | ⟨-, -, rfl⟩ | ⟨_, -, rfl⟩ | ⟨hstarts, rfl⟩
  · exact hne
  · exact hne
  · exact hne
  · exact lexeme_behindPrelude_ne_nil (.inl hne) _ _
  · refine lexeme_scanStatement_ne_nil ht (fun hv => ?_) fun hin hv => ?_
    · rw [hv] at hstarts
      exact hstarts
    · rw [hv] at hstarts
      simp [startsStatement, hin] at hstarts

/-- The text behind an item is shorter. -/
theorem length_rest_lt_of_scan?_eq_some {inBlock : Bool} {text : List Char}
    {s : Scan (Option Mark)} (h : scan? inBlock text = some s) :
    s.rest.length < text.length :=
  (splits_of_scan?_eq_some h).length_rest_lt (lexeme_ne_nil_of_scan?_eq_some h)

@[simp] theorem scan?_eq_none_iff {inBlock : Bool} {text : List Char} :
    scan? inBlock text = none ↔ text = [] := by
  simp [scan?]

/-- The open blocks behind an item, which may be no mark. -/
def depthAfter (depth : Nat) (mark : Option Mark) : Nat :=
  mark.elim depth (depthBehind depth)

/-- The marks that are met in a text inside `depth` blocks. The end of the text closes
the blocks. -/
def met (depth : Nat) (text : List Char) : List Mark :=
  match _h : scan? (0 < depth) text with
  | none => List.replicate depth closing
  | some s => s.value.toList ++ met (depthAfter depth s.value) s.rest
termination_by text.length
decreasing_by exact length_rest_lt_of_scan?_eq_some _h

theorem met_nil (depth : Nat) : met depth [] = List.replicate depth closing := by
  unfold met
  simp [scan?, Token.scan?]

theorem met_of_scan? {depth : Nat} {text : List Char} {s : Scan (Option Mark)}
    (h : scan? (0 < depth) text = some s) :
    met depth text = s.value.toList ++ met (depthAfter depth s.value) s.rest := by
  rw [met]
  split
  · rename_i hnone
    rw [h] at hnone
    simp at hnone
  · rename_i s' hs
    rw [h] at hs
    rw [Option.some.inj hs]

theorem met_semicolon (depth : Nat) (text : List Char) :
    met depth (';' :: text) = met depth text :=
  met_of_scan? (scan?_of_skipped (Token.scan?_of_isHard (.inl rfl) text) (.inr rfl))

end Mark

namespace Reader

/-- The marks of the blocks that are open. -/
def marksOfBlocks : List OpenBlock → List Mark
  | [] => []
  | block :: outer =>
    marksOfBlocks outer ++ (Tree.marksOfAll block.earlier.reverse ++ [.opening block.kind])

/-- The marks that a reader has met. -/
def marks (r : Reader) : List Mark :=
  marksOfBlocks r.enclosing ++ Tree.marksOfAll r.siblings.reverse

/-- What a reader has read is orderly. -/
structure Orderly (r : Reader) : Prop where
  siblings : Tree.AllOrderly r.siblings
  earlier : ∀ block ∈ r.enclosing, Tree.AllOrderly block.earlier
  kind : ∀ block ∈ r.enclosing, block.kind ≠ .root ∧ block.kind.hasBlock

/-- The reader `r'` has met a mark more than `r`, or none. -/
structure Meets (r r' : Reader) (mark : Option Mark) : Prop where
  orderly : r'.Orderly
  marks : r'.marks = r.marks ++ mark.toList
  depth : r'.enclosing.length = Mark.depthAfter r.enclosing.length mark

variable {r : Reader}

@[simp] theorem siblings_pass {α : Type} (r : Reader) (s : Scan α) :
    (r.pass s).siblings = r.siblings := rfl

@[simp] theorem enclosing_pass {α : Type} (r : Reader) (s : Scan α) :
    (r.pass s).enclosing = r.enclosing := rfl

@[simp] theorem marks_pass {α : Type} (r : Reader) (s : Scan α) : (r.pass s).marks = r.marks := rfl

@[simp] theorem inBlock_pass {α : Type} (r : Reader) (s : Scan α) :
    (r.pass s).inBlock = r.inBlock := rfl

theorem Orderly.pass {α : Type} (h : r.Orderly) (s : Scan α) : (r.pass s).Orderly :=
  ⟨h.siblings, h.earlier, h.kind⟩

theorem meets_pass {α : Type} (h : r.Orderly) (s : Scan α) : Meets r (r.pass s) none :=
  ⟨h.pass s, by simp, rfl⟩

theorem meets_place (h : r.Orderly) (start : Position) {kind : NodeKind}
    (hkind : kind ≠ .root) (hblock : kind.hasBlock = false) :
    Meets r (r.place start kind) (some (.leaf kind)) where
  orderly := ⟨⟨⟨hkind, by simp, trivial⟩, h.siblings⟩, h.earlier, h.kind⟩
  marks := by
    simp [marks, place, Tree.marks_of_not_hasBlock hblock]
  depth := rfl

theorem meets_openBlock (h : r.Orderly) (start : Position) {kind : NodeKind}
    (hkind : kind ≠ .root) (hblock : kind.hasBlock) :
    Meets r (r.openBlock start kind) (some (.opening kind)) where
  orderly := by
    refine ⟨trivial, fun block hmem => ?_, fun block hmem => ?_⟩ <;>
      rcases List.mem_cons.mp hmem with rfl | hmem
    · exact h.siblings
    · exact h.earlier block hmem
    · exact ⟨hkind, hblock⟩
    · exact h.kind block hmem
  marks := by
    simp [marks, openBlock, marksOfBlocks]
  depth := rfl

theorem meets_closeBlock (h : r.Orderly) (hin : r.inBlock) :
    Meets r r.closeBlock (some .closing) := by
  obtain ⟨cursor, siblings, enclosing, warnings⟩ := r
  cases enclosing with
  | nil => simp [inBlock] at hin
  | cons block outer =>
    have hkind := h.kind block List.mem_cons_self
    refine ⟨⟨⟨⟨hkind.1, fun _ => hkind.2, ?_⟩, h.earlier block List.mem_cons_self⟩,
      fun b hmem => h.earlier b (List.mem_cons_of_mem _ hmem),
      fun b hmem => h.kind b (List.mem_cons_of_mem _ hmem)⟩, ?_, rfl⟩
    · rw [Tree.allOrderly_iff]
      intro tree hmem
      exact Tree.allOrderly_iff.mp h.siblings tree (List.mem_reverse.mp hmem)
    · simp [marks, closeBlock, OpenBlock.close, marksOfBlocks, Tree.marks_of_hasBlock hkind.2]

/-- The end of a prelude makes the mark of a block or of a statement. What is left is
the same, but for a semicolon that the reader takes along. -/
theorem meets_behindPrelude (h : r.Orderly) (start : Position) (before : List Char)
    (head : Scan (List Piece)) {withBlock : NodeKind} {outcome : Except SkipReason NodeKind}
    (hblock : withBlock ≠ .root ∧ withBlock.hasBlock)
    (houtcome : ∀ kind, outcome = .ok kind → kind ≠ .root ∧ kind.hasBlock = false) :
    let s := Mark.behindPrelude before head withBlock outcome.toOption
    let r' := r.behindPrelude start head withBlock outcome
    Meets r r' s.value ∧
      (s.rest = r'.cursor.unread ∨ s.rest = ';' :: r'.cursor.unread) := by
  have hend : ∀ r' : Reader, r'.Orderly → r'.marks = r.marks →
      r'.enclosing = r.enclosing →
      Meets r (r'.endStatement start outcome) (outcome.toOption.map .leaf) := by
    intro r' h' hmarks henclosing
    cases outcome with
    | error reason => exact ⟨⟨h'.siblings, h'.earlier, h'.kind⟩,
        by simpa [endStatement, marks, warn, Except.toOption] using hmarks,
        congrArg List.length henclosing⟩
    | ok kind =>
      have hplace := meets_place h' start (houtcome kind rfl).1 (houtcome kind rfl).2
      refine ⟨hplace.orderly, ?_, ?_⟩
      · rw [endStatement, hplace.marks, hmarks]
        rfl
      · rw [endStatement, hplace.depth, henclosing]
        rfl
  unfold Mark.behindPrelude behindPrelude
  split
  · rename_i rest hrest
    have hopen := meets_openBlock ((h.pass head).pass ⟨['{'], (), rest⟩) start hblock.1 hblock.2
    simp only [hrest]
    exact ⟨⟨hopen.orderly, hopen.marks, hopen.depth⟩, .inl rfl⟩
  · rename_i hrest
    split
    · rename_i rest hsemi
      exact absurd hsemi (hrest rest)
    · rename_i rest hsemi
      exact ⟨hend _ ((h.pass head).pass ⟨[';'], (), rest⟩) rfl rfl, .inr (by simp [hsemi])⟩
    · exact ⟨hend _ (h.pass head) rfl rfl, .inl (by simp)⟩

theorem ok_of_readDeclaration {text : List Char} {kind : NodeKind}
    (h : readDeclaration text = .ok kind) :
    ∃ property value important, kind = .declaration property value important := by
  obtain ⟨property, value, -, -, -, hkind⟩ := exists_of_readDeclaration h
  exact ⟨_, _, _, hkind⟩

theorem meets_readStatement (h : r.Orderly) :
    let s := Mark.scanStatement r.inBlock r.cursor.unread
    Meets r r.readStatement s.value ∧
      (s.rest = r.readStatement.cursor.unread ∨ s.rest = ';' :: r.readStatement.cursor.unread) := by
  refine meets_behindPrelude h r.cursor.position [] (Prelude.scan r.inBlock r.cursor.unread)
    ⟨by simp, rfl⟩ fun kind hkind => ?_
  obtain ⟨property, value, important, rfl⟩ := ok_of_readDeclaration hkind
  exact ⟨by simp, rfl⟩

theorem meets_readAtRule (h : r.Orderly) (start : Position) (t : Scan Token)
    (ht : r.cursor.unread = t.rest) (name : List Char) :
    let s := Mark.scanAtRule r.inBlock t name
    let r' := r.readAtRule start name
    Meets r r' s.value ∧
      (s.rest = r'.cursor.unread ∨ s.rest = ';' :: r'.cursor.unread) := by
  unfold Mark.scanAtRule readAtRule
  rw [ht]
  exact meets_behindPrelude h start t.lexeme (Prelude.scan r.inBlock t.rest) ⟨by simp, rfl⟩
    (by rintro kind ⟨⟩; exact ⟨by simp, rfl⟩)

theorem inBlock_eq (r : Reader) : r.inBlock = decide (0 < r.enclosing.length) := by
  unfold inBlock
  cases r.enclosing <;> simp

theorem step_of_startsStatement {t : Scan Token} (h : Mark.startsStatement r.inBlock t.value) :
    r.step t = r.readStatement := by
  unfold Mark.startsStatement at h
  unfold step
  split <;> simp_all

/-- An item of the reader is one of marks. -/
theorem meets_step (h : r.Orderly) {t : Scan Token} (ht : Token.scan? r.cursor.unread = some t) :
    ∃ s, Mark.scan? (0 < r.enclosing.length) r.cursor.unread = some s ∧
      Meets r (r.step t) s.value ∧
      (s.rest = (r.step t).cursor.unread ∨ s.rest = ';' :: (r.step t).cursor.unread) := by
  rw [← inBlock_eq]
  obtain ⟨s, hs⟩ : ∃ s, Mark.scan? r.inBlock r.cursor.unread = some s :=
    ⟨_, Option.map_eq_some_iff.mpr ⟨t, ht, rfl⟩⟩
  refine ⟨s, hs, ?_⟩
  obtain ⟨t', ht', hcases⟩ := Mark.scan?_cases hs
  obtain rfl : t = t' := Option.some.inj (ht.symm.trans ht')
  rcases hcases with ⟨hv | hv, rfl⟩ | ⟨body, hv, rfl⟩ | ⟨hv, hin, rfl⟩ | ⟨name, hv, rfl⟩ |
    ⟨hstarts, rfl⟩
  · rw [step, hv]
    exact ⟨meets_pass h t, .inl rfl⟩
  · rw [step, hv]
    exact ⟨meets_pass h t, .inl rfl⟩
  · have hplace := meets_place (h.pass t) r.cursor.position
      (show NodeKind.comment (String.ofList body) ≠ .root by simp) rfl
    rw [step, hv]
    exact ⟨⟨hplace.orderly, hplace.marks, hplace.depth⟩, .inl rfl⟩
  · have hclose := meets_closeBlock (h.pass t) hin
    rw [step, hv]
    dsimp only
    rw [if_pos hin]
    exact ⟨⟨hclose.orderly, hclose.marks, hclose.depth⟩, .inl (by simp)⟩
  · obtain ⟨hmeets, hrest⟩ := meets_readAtRule (h.pass t) r.cursor.position t rfl name
    rw [step, hv]
    exact ⟨⟨hmeets.orderly, hmeets.marks, hmeets.depth⟩, hrest⟩
  · rw [step_of_startsStatement hstarts]
    exact meets_readStatement h

/-- What was met so far and what is still to be met make up the marks of a reading. -/
theorem marks_run (h : r.Orderly) :
    r.run.Orderly ∧ r.run.marks ++ List.replicate r.run.enclosing.length .closing =
      r.marks ++ Mark.met r.enclosing.length r.cursor.unread := by
  fun_induction run r with
  | case1 r hnone =>
    rw [Token.scan?_eq_none_iff] at hnone
    rw [hnone, Mark.met_nil]
    exact ⟨h, rfl⟩
  | case2 r t ht ih =>
    obtain ⟨s, hs, hmeets, hrest⟩ := meets_step h ht
    obtain ⟨horderly, hmarks⟩ := ih hmeets.orderly
    refine ⟨horderly, ?_⟩
    have hmet : Mark.met (Mark.depthAfter r.enclosing.length s.value) s.rest =
        Mark.met (r.step t).enclosing.length (r.step t).cursor.unread := by
      rw [hmeets.depth]
      rcases hrest with hrest | hrest
      · rw [hrest]
      · rw [hrest, Mark.met_semicolon]
    rw [hmarks, hmeets.marks, Mark.met_of_scan? hs, hmet, List.append_assoc]

theorem orderly_closeBlocks (stop : Position) {enclosing : List OpenBlock} :
    ∀ {siblings : List Tree}, Tree.AllOrderly siblings →
      (∀ block ∈ enclosing, Tree.AllOrderly block.earlier) →
      (∀ block ∈ enclosing, block.kind ≠ .root ∧ block.kind.hasBlock) →
      Tree.AllOrderly (closeBlocks stop enclosing siblings) ∧
        Tree.marksOfAll (closeBlocks stop enclosing siblings).reverse =
          marksOfBlocks enclosing ++ Tree.marksOfAll siblings.reverse ++
            List.replicate enclosing.length .closing := by
  induction enclosing with
  | nil =>
    intro siblings hsiblings _ _
    exact ⟨hsiblings, by simp [closeBlocks, marksOfBlocks]⟩
  | cons block outer ih =>
    intro siblings hsiblings hearlier hkind
    have hblock := hkind block List.mem_cons_self
    have hclosed : Tree.AllOrderly (block.close stop siblings) := by
      refine ⟨⟨hblock.1, fun _ => hblock.2, ?_⟩, hearlier block List.mem_cons_self⟩
      rw [Tree.allOrderly_iff] at hsiblings ⊢
      exact fun tree hmem => hsiblings tree (List.mem_reverse.mp hmem)
    obtain ⟨horderly, hmarks⟩ := ih hclosed
      (fun b hmem => hearlier b (List.mem_cons_of_mem _ hmem))
      (fun b hmem => hkind b (List.mem_cons_of_mem _ hmem))
    refine ⟨horderly, ?_⟩
    rw [closeBlocks, hmarks]
    simp [OpenBlock.close, marksOfBlocks, Tree.marks_of_hasBlock hblock.2, List.replicate_succ]

end Reader

namespace Reading

/-- What is read from a text is orderly, and its marks are those met in the text. -/
theorem orderly_ofText (text : String) : Tree.AllOrderly (ofText text).trees ∧
    Tree.marksOfAll (ofText text).trees = Mark.met 0 text.toList := by
  have hstart : (Reader.ofText text.toList).Orderly := ⟨trivial, by simp [Reader.ofText],
    by simp [Reader.ofText]⟩
  obtain ⟨h, hmarks⟩ := Reader.marks_run hstart
  obtain ⟨horderly, hclosed⟩ := Reader.orderly_closeBlocks
    (Reader.ofText text.toList).run.cursor.position h.siblings h.earlier h.kind
  constructor
  · rw [Tree.allOrderly_iff] at horderly ⊢
    exact fun tree hmem => horderly tree (List.mem_reverse.mp hmem)
  · exact hclosed.trans hmarks

end Reading

end Typography
