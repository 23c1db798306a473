import Typography.Proofs.Stylesheet.Spanned

/-!
# Where nodes start

`Mark.begun` goes through a text item by item and lists the nodes that begin in it, each with
the text before its first character, without counting lines or columns. The nodes that are
read from the text are these, in pre-order, and each starts at the position behind the text
before it, `Reading.starts_ofText`.
-/

namespace Typography

namespace Mark

/-- The nodes that begin in a text inside `depth` blocks, when `before` is the text in front of
it: the kind of each node, and the text in front of the node. -/
def begun (depth : Nat) (before text : List Char) : List (NodeKind × List Char) :=
  match _h : scan? (0 < depth) text with
  | none => []
  | some s =>
    (s.value.bind kind?).toList.map (·, before) ++
      begun (depthAfter depth s.value) (before ++ s.lexeme) s.rest
termination_by text.length
decreasing_by exact length_rest_lt_of_scan?_eq_some _h

variable {depth : Nat} {before text : List Char}

theorem begun_nil (depth : Nat) (before : List Char) : begun depth before [] = [] := by
  unfold begun
  simp [scan?, Token.scan?]

theorem begun_of_scan? {s : Scan (Option Mark)} (h : scan? (0 < depth) text = some s) :
    begun depth before text =
      (s.value.bind kind?).toList.map (·, before) ++
        begun (depthAfter depth s.value) (before ++ s.lexeme) s.rest := by
  rw [begun]
  split
  · simp_all
  · simp_all

theorem begun_semicolon (depth : Nat) (before text : List Char) :
    begun depth before (';' :: text) = begun depth (before ++ [';']) text :=
  begun_of_scan? (scan?_of_skipped (Token.scan?_of_isHard (.inl rfl) text) (.inr rfl))

/-- Where a node begins there is no whitespace. -/
theorem exists_cons_of_kind? {inBlock : Bool} {s : Scan (Option Mark)} {kind : NodeKind}
    (h : scan? inBlock text = some s) (hkind : s.value.bind kind? = some kind) :
    ∃ c cs, text = c :: cs ∧ Text.isSpace c = false := by
  obtain ⟨c, cs, rfl⟩ := List.exists_cons_of_ne_nil
    (fun hnil => by simp [scan?_eq_none_iff.mpr hnil] at h : text ≠ [])
  refine ⟨c, cs, rfl, Bool.eq_false_iff.mpr fun hc => ?_⟩
  rw [scan?_of_skipped (Token.scan?_of_isSpace hc cs) (.inl rfl)] at h
  rw [← Option.some.inj h] at hkind
  cases hkind

/-- In front of each node that begins in a text stands what comes before its first
character. -/
theorem exists_append_of_mem_begun {kind : NodeKind} {front : List Char}
    (h : (kind, front) ∈ begun depth before text) :
    ∃ c cs, front ++ c :: cs = before ++ text ∧ Text.isSpace c = false := by
  fun_induction begun depth before text with
  | case1 => cases h
  | case2 depth before text s hs ih =>
    rcases List.mem_append.mp h with h | h
    · obtain ⟨_, hkind, heq⟩ := List.mem_map.mp h
      obtain ⟨rfl, rfl⟩ := Prod.mk.inj heq
      obtain ⟨c, cs, rfl, hc⟩ := exists_cons_of_kind? hs (Option.mem_toList.mp hkind)
      exact ⟨c, cs, rfl, hc⟩
    · rw [← splits_of_scan?_eq_some hs, ← List.append_assoc]
      exact ih h

theorem kind?_behindPrelude_of_curly (front : List Char) {head : Scan (List Piece)}
    {rest : List Char} (h : head.rest = '{' :: rest) (withBlock : NodeKind)
    (outcome : Option NodeKind) :
    (behindPrelude front head withBlock outcome).value.bind kind? = some withBlock := by
  rw [behindPrelude, h]
  rfl

theorem kind?_behindPrelude_of_ne (front : List Char) {head : Scan (List Piece)}
    (h : ∀ rest, head.rest ≠ '{' :: rest) (withBlock : NodeKind) (outcome : Option NodeKind) :
    (behindPrelude front head withBlock outcome).value.bind kind? = outcome := by
  unfold behindPrelude
  split
  · rename_i rest hrest
    exact absurd hrest (h rest)
  · cases outcome <;> rfl

end Mark

namespace Tree

mutual

/-- The nodes of a tree in pre-order, each with its kind and the start of its span. -/
def starts : Tree → List (NodeKind × Option Position)
  | .node kind span children => (kind, span.map Span.start) :: startsOfAll children

/-- The nodes of trees, one tree after the other. -/
def startsOfAll : List Tree → List (NodeKind × Option Position)
  | [] => []
  | tree :: trees => tree.starts ++ startsOfAll trees

end

@[simp] theorem startsOfAll_nil : startsOfAll [] = [] := rfl

@[simp] theorem startsOfAll_cons (tree : Tree) (trees : List Tree) :
    startsOfAll (tree :: trees) = tree.starts ++ startsOfAll trees := rfl

@[simp] theorem startsOfAll_append (trees more : List Tree) :
    startsOfAll (trees ++ more) = startsOfAll trees ++ startsOfAll more := by
  induction trees with
  | nil => rfl
  | cons tree trees ih =>
    rw [List.cons_append, startsOfAll_cons, startsOfAll_cons, ih, List.append_assoc]

end Tree

namespace Reader

/-- The nodes before the innermost list, those of the blocks that are open included. -/
def startsOfBlocks : List OpenBlock → List (NodeKind × Option Position)
  | [] => []
  | block :: outer =>
    startsOfBlocks outer ++
      (Tree.startsOfAll block.earlier.reverse ++ [(block.kind, some block.start)])

/-- The nodes that a reader has begun. -/
def starts (r : Reader) : List (NodeKind × Option Position) :=
  startsOfBlocks r.enclosing ++ Tree.startsOfAll r.siblings.reverse

variable {r : Reader} {text before : List Char}

theorem starts_place (r : Reader) (start : Position) (kind : NodeKind) :
    (r.place start kind).starts = r.starts ++ [(kind, some start)] := by
  simp [starts, place, Tree.starts]

theorem starts_openBlock (r : Reader) (start : Position) (kind : NodeKind) :
    (r.openBlock start kind).starts = r.starts ++ [(kind, some start)] := by
  simp [starts, openBlock, startsOfBlocks]

theorem starts_closeBlock (r : Reader) : r.closeBlock.starts = r.starts := by
  obtain ⟨cursor, siblings, enclosing, warnings⟩ := r
  cases enclosing with
  | nil => rfl
  | cons block outer => simp [starts, closeBlock, OpenBlock.close, startsOfBlocks, Tree.starts]

/-- The node of a statement is begun at its start, unless the statement is skipped. -/
theorem starts_endStatement (r : Reader) (start : Position)
    (outcome : Except SkipReason NodeKind) :
    (r.endStatement start outcome).starts =
      r.starts ++ outcome.toOption.toList.map (·, some start) := by
  cases outcome with
  | ok kind => exact starts_place r start kind
  | error reason => exact (List.append_nil _).symm

theorem starts_behindPrelude (r : Reader) (start : Position) (front : List Char)
    (head : Scan (List Piece)) (withBlock : NodeKind) (outcome : Except SkipReason NodeKind) :
    (r.behindPrelude start head withBlock outcome).starts =
      r.starts ++ ((Mark.behindPrelude front head withBlock outcome.toOption).value.bind
        Mark.kind?).toList.map (·, some start) := by
  unfold behindPrelude
  split
  · rename_i rest hrest
    rw [Mark.kind?_behindPrelude_of_curly front hrest]
    exact starts_openBlock ((r.pass head).pass ⟨['{'], (), rest⟩) start withBlock
  · rename_i rest hrest
    rw [Mark.kind?_behindPrelude_of_ne front (by simp [hrest])]
    exact starts_endStatement ((r.pass head).pass ⟨[';'], (), rest⟩) start outcome
  · rename_i hcurly _
    rw [Mark.kind?_behindPrelude_of_ne front hcurly]
    exact starts_endStatement (r.pass head) start outcome

/-- A step of the reader begins the node that begins with the next item. -/
theorem starts_step {t : Scan Token} (ht : Token.scan? r.cursor.unread = some t)
    {s : Scan (Option Mark)} (hs : Mark.scan? r.inBlock r.cursor.unread = some s) :
    (r.step t).starts =
      r.starts ++ (s.value.bind Mark.kind?).toList.map (·, some r.cursor.position) := by
  obtain ⟨t', ht', hcases⟩ := Mark.scan?_cases hs
  obtain rfl : t = t' := Option.some.inj (ht.symm.trans ht')
  rcases hcases with ⟨hv | hv, rfl⟩ | ⟨body, hv, rfl⟩ | ⟨hv, hin, rfl⟩ | ⟨name, hv, rfl⟩ |
    ⟨hstarts, rfl⟩
  · rw [step, hv]
    exact (List.append_nil _).symm
  · rw [step, hv]
    exact (List.append_nil _).symm
  · rw [step, hv]
    exact starts_place (r.pass t) _ _
  · rw [step, hv]
    dsimp only
    rw [if_pos hin, starts_closeBlock]
    exact (List.append_nil _).symm
  · rw [step, hv]
    exact starts_behindPrelude (r.pass t) _ _ _ _ _
  · rw [step_of_startsStatement hstarts]
    exact starts_behindPrelude r _ _ _ _ _

/-- The nodes that were begun so far and those that begin in what is unread make up those of
a reading. -/
theorem starts_run (h : r.Orderly) (hat : r.cursor.IsAt text before) :
    r.run.starts = r.starts ++ (Mark.begun r.enclosing.length before r.cursor.unread).map
      fun (kind, front) => (kind, some (Position.start.after front)) := by
  fun_induction Reader.run r generalizing before with
  | case1 r hnone =>
    rw [Token.scan?_eq_none_iff] at hnone
    rw [hnone, Mark.begun_nil, List.map_nil, List.append_nil]
  | case2 r t ht ih =>
    obtain ⟨s, hs, hmeets, hrest⟩ := meets_step h ht
    obtain ⟨passed, hat'⟩ := exists_isAt_step hat ht
    have hbegun : Mark.begun (r.step t).enclosing.length (before ++ s.lexeme) s.rest =
        Mark.begun (r.step t).enclosing.length passed (r.step t).cursor.unread := by
      have htext := hat'.append_unread.trans hat.append_unread.symm
      rw [← Mark.splits_of_scan?_eq_some hs, ← List.append_assoc] at htext
      -- the reader may have taken a semicolon that the scan of marks leaves to the next item
      rcases hrest with hrest | hrest
      · rw [hrest, List.append_cancel_right_eq] at htext
        rw [hrest, htext]
      · rw [hrest, List.append_cons, List.append_cancel_right_eq] at htext
        rw [hrest, htext, Mark.begun_semicolon]
    rw [ih hmeets.orderly hat', Mark.begun_of_scan? hs, ← hmeets.depth, hbegun,
      starts_step ht (inBlock_eq r ▸ hs), hat.position_eq]
    simp

theorem startsOfAll_closeBlocks (stop : Position) (enclosing : List OpenBlock)
    (siblings : List Tree) :
    Tree.startsOfAll (closeBlocks stop enclosing siblings).reverse =
      startsOfBlocks enclosing ++ Tree.startsOfAll siblings.reverse := by
  induction enclosing generalizing siblings with
  | nil => rfl
  | cons block outer ih =>
    rw [closeBlocks, ih]
    simp [OpenBlock.close, startsOfBlocks, Tree.starts]

end Reader

namespace Reading

/-- The nodes that are read from a text are those that begin in it, and each starts where it
begins. -/
theorem starts_ofText (css : String) :
    Tree.startsOfAll (ofText css).trees = (Mark.begun 0 [] css.toList).map
      fun (kind, front) => (kind, some (Position.start.after front)) := by
  have horderly : (Reader.ofText css.toList).Orderly :=
    ⟨trivial, by simp [Reader.ofText], by simp [Reader.ofText]⟩
  have hrun := Reader.starts_run horderly (Cursor.isAt_ofText css.toList)
  exact (Reader.startsOfAll_closeBlocks _ _ _).trans hrun

example : Tree.startsOfAll (ofText "/* x */\r\n  a \x7b\r\n\t/* 𝑥 */ b: c \x7d").trees =
    [(.comment " x ", some ⟨1, 1⟩), (.rule "a", some ⟨2, 3⟩), (.comment " 𝑥 ", some ⟨3, 2⟩),
      (.declaration "b" "c" false, some ⟨3, 11⟩)] := by
  decide +kernel

end Reading

end Typography
