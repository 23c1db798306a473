import Typography.Proofs.Stylesheet.Place

/-!
# Spans of what is read

The spans of the trees that are read from a text are in order: a tree stands between two
positions, what is below a node stands behind its start and before its end, and one sibling
stands before the other, `Tree.AllSpanned`. A reader keeps this of the nodes that it has
read so far, in the blocks that are open and in the list inside them, for its own position,
`Reader.Spanned`; so the trees have it when the end of the text closes the blocks,
`Reading.allSpanned_ofText`.
-/

namespace Typography

namespace Tree

mutual

/-- A tree stands between two positions: its span starts at the first or behind it and ends
at the second or before it, and everything below it stands behind its start. -/
def Spanned (lo hi : Position) : Tree → Prop
  | .node _ span children =>
    ∃ start inner stop, span = some ⟨start, some stop⟩ ∧ lo ≤ start ∧ start < inner ∧
      AllSpanned inner stop children ∧ stop ≤ hi

/-- Trees stand between two positions, one behind the other. -/
def AllSpanned (lo hi : Position) : List Tree → Prop
  | [] => lo ≤ hi
  | tree :: trees => ∃ between, tree.Spanned lo between ∧ AllSpanned between hi trees

end

variable {lo lo' between hi hi' : Position} {tree : Tree} {trees : List Tree}

theorem Spanned.mono (h : tree.Spanned lo hi) (hlo : lo' ≤ lo) (hhi : hi ≤ hi') :
    tree.Spanned lo' hi' := by
  obtain ⟨kind, span, children⟩ := tree
  obtain ⟨start, inner, stop, hspan, hstart, hinner, hchildren, hstop⟩ := h
  exact ⟨start, inner, stop, hspan, hlo.trans hstart, hinner, hchildren, hstop.trans hhi⟩

theorem AllSpanned.mono (h : AllSpanned lo hi trees) (hhi : hi ≤ hi') :
    AllSpanned lo hi' trees := by
  induction trees generalizing lo with
  | nil => exact le_trans h hhi
  | cons tree trees ih =>
    obtain ⟨between, htree, htrees⟩ := h
    exact ⟨between, htree, ih htrees⟩

theorem AllSpanned.le_of_each (heach : ∀ tree ∈ trees, ∀ lo hi, tree.Spanned lo hi → lo ≤ hi)
    (h : AllSpanned lo hi trees) : lo ≤ hi := by
  induction trees generalizing lo with
  | nil => exact h
  | cons tree trees ih =>
    obtain ⟨between, htree, htrees⟩ := h
    have hrest := ih (fun other hmem => heach other (List.mem_cons_of_mem _ hmem)) htrees
    exact (heach tree List.mem_cons_self lo between htree).trans hrest

theorem Spanned.le (tree : Tree) : ∀ lo hi, tree.Spanned lo hi → lo ≤ hi := by
  induction tree using induction with
  | step kind span children ih =>
    rintro lo hi ⟨start, inner, stop, -, hstart, hinner, hchildren, hstop⟩
    exact hstart.trans (hinner.le.trans ((hchildren.le_of_each ih).trans hstop))

theorem AllSpanned.le (h : AllSpanned lo hi trees) : lo ≤ hi :=
  h.le_of_each fun tree _ => Spanned.le tree

theorem AllSpanned.concat (h : AllSpanned lo between trees) (htree : tree.Spanned between hi) :
    AllSpanned lo hi (trees ++ [tree]) := by
  induction trees generalizing lo with
  | nil => exact ⟨hi, htree.mono h le_rfl, le_rfl⟩
  | cons first trees ih =>
    obtain ⟨next, hfirst, htrees⟩ := h
    exact ⟨next, hfirst, ih htrees⟩

end Tree

/-- What was read before the position `hi` has its spans in order: the nodes of the innermost
list, which have the latest first, and those of the open blocks, each before its block. -/
def SpannedBefore (hi : Position) : List OpenBlock → List Tree → Prop
  | [], siblings => Tree.AllSpanned .start hi siblings.reverse
  | block :: outer, siblings =>
    (∃ inner, block.start < inner ∧ Tree.AllSpanned inner hi siblings.reverse) ∧
      SpannedBefore block.start outer block.earlier

namespace SpannedBefore

variable {lo hi hi' start stop : Position} {enclosing outer : List OpenBlock} {block : OpenBlock}
  {siblings : List Tree} {tree : Tree}

theorem mono (h : SpannedBefore hi enclosing siblings) (hhi : hi ≤ hi') :
    SpannedBefore hi' enclosing siblings := by
  cases enclosing with
  | nil => exact Tree.AllSpanned.mono h hhi
  | cons block outer =>
    obtain ⟨⟨inner, hinner, hsiblings⟩, houter⟩ := h
    exact ⟨⟨inner, hinner, hsiblings.mono hhi⟩, houter⟩

theorem add (h : SpannedBefore lo enclosing siblings) (htree : tree.Spanned lo hi) :
    SpannedBefore hi enclosing (tree :: siblings) := by
  cases enclosing with
  | nil =>
    rw [SpannedBefore, List.reverse_cons]
    exact Tree.AllSpanned.concat h htree
  | cons block outer =>
    obtain ⟨⟨inner, hinner, hsiblings⟩, houter⟩ := h
    refine ⟨⟨inner, hinner, ?_⟩, houter⟩
    rw [List.reverse_cons]
    exact hsiblings.concat htree

theorem leaf (h : SpannedBefore start enclosing siblings) (hstop : start < stop)
    (kind : NodeKind) :
    SpannedBefore stop enclosing (.node kind (some ⟨start, some stop⟩) [] :: siblings) :=
  h.add ⟨start, stop, stop, rfl, le_rfl, hstop, le_rfl, le_rfl⟩

theorem openBlock (h : SpannedBefore start enclosing siblings) (hhi : start < hi)
    (kind : NodeKind) : SpannedBefore hi (⟨kind, start, siblings⟩ :: enclosing) [] :=
  ⟨⟨hi, hhi, le_rfl⟩, h⟩

theorem close (h : SpannedBefore hi (block :: outer) siblings) :
    SpannedBefore hi outer (block.close hi siblings) := by
  obtain ⟨⟨inner, hinner, hsiblings⟩, houter⟩ := h
  exact houter.add ⟨block.start, inner, hi, rfl, le_rfl, hinner, hsiblings, le_rfl⟩

theorem closeBlocks (h : SpannedBefore hi enclosing siblings) :
    Tree.AllSpanned .start hi (closeBlocks hi enclosing siblings).reverse := by
  induction enclosing generalizing siblings with
  | nil => exact h
  | cons block outer ih => exact ih h.close

end SpannedBefore

namespace Reader

/-- What a reader has read has its spans in order, up to the position where the reader is. -/
def Spanned (r : Reader) : Prop :=
  SpannedBefore r.cursor.position r.enclosing r.siblings

variable {r : Reader} {start : Position} {text before : List Char}

theorem Spanned.closeBlock (h : r.Spanned) : r.closeBlock.Spanned := by
  obtain ⟨cursor, siblings, enclosing, warnings⟩ := r
  cases enclosing with
  | nil => exact h
  | cons block outer => exact SpannedBefore.close h

/-- A statement that ends behind its start is a node in order, or none. -/
theorem spanned_endStatement (h : SpannedBefore start r.enclosing r.siblings)
    (hlt : start < r.cursor.position) (outcome : Except SkipReason NodeKind) :
    (r.endStatement start outcome).Spanned := by
  cases outcome with
  | ok kind => exact h.leaf hlt kind
  | error reason => exact h.mono hlt.le

theorem spanned_behindPrelude (h : SpannedBefore start r.enclosing r.siblings)
    {head : Scan (List Piece)} {withBlock : NodeKind} {outcome : Except SkipReason NodeKind}
    (hlt : start < (r.behindPrelude start head withBlock outcome).cursor.position) :
    (r.behindPrelude start head withBlock outcome).Spanned := by
  revert hlt
  unfold behindPrelude
  split
  · exact fun hlt => h.openBlock hlt withBlock
  · rename_i rest _
    intro hlt
    rw [cursor_endStatement] at hlt
    exact spanned_endStatement (r := (r.pass head).pass ⟨[';'], (), rest⟩) h hlt outcome
  · intro hlt
    rw [cursor_endStatement] at hlt
    exact spanned_endStatement (r := r.pass head) h hlt outcome

/-- A step of the reader keeps what was read in order. -/
theorem Spanned.step (h : r.Spanned) (hat : r.cursor.IsAt text before) {t : Scan Token}
    (ht : Token.scan? r.cursor.unread = some t) : (r.step t).Spanned := by
  have hle : r.cursor.position ≤ (r.cursor.pass t).position := Position.le_after _ _
  have hlt : r.cursor.position < (r.step t).cursor.position := by
    obtain ⟨passed, hat'⟩ := exists_isAt_step hat ht
    exact hat.position_lt hat' (length_unread_step_lt ht)
  revert hlt
  unfold Reader.step
  split
  · exact fun _ => h.mono hle
  · exact fun _ => h.mono hle
  · exact fun hlt => h.leaf hlt _
  · exact fun hlt => spanned_behindPrelude (r := r.pass t) h hlt
  · split
    · exact fun _ => Spanned.closeBlock (r := r.pass t) (h.mono hle)
    · exact fun hlt => spanned_behindPrelude h hlt
  · exact fun hlt => spanned_behindPrelude h hlt

theorem Spanned.run (h : r.Spanned) (hat : r.cursor.IsAt text before) : r.run.Spanned := by
  fun_induction Reader.run r generalizing before with
  | case1 r hnone => exact h
  | case2 r t ht ih =>
    obtain ⟨passed, hat'⟩ := exists_isAt_step hat ht
    exact ih (h.step hat ht) hat'

end Reader

namespace Reading

/-- The trees of a text have their spans in order, between the start of the text and its
end. -/
theorem allSpanned_ofText (css : String) :
    Tree.AllSpanned .start (Position.start.after css.toList) (ofText css).trees := by
  have hat := Cursor.isAt_ofText css.toList
  have hspanned : (Reader.ofText css.toList).Spanned := le_rfl
  have hrun : (Reader.ofText css.toList).run.cursor.IsAt css.toList css.toList :=
    Reader.isAt_run hat
  rw [← hrun.position_eq]
  exact (hspanned.run hat).closeBlocks

end Reading

end Typography
