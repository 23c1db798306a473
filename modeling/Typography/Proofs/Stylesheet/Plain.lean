import Typography.Proofs.Document.History
import Typography.Proofs.Stylesheet.PlainNode

/-!
# Plain documents

A document is plain if all of its nodes are. Plain documents are read back from their
layout, `Document.bareAll_ofTrees_layout`, at any depth and with any neighbours, since
every mark of theirs is settled.
-/

namespace Typography

open Text

/-- Trees whose nodes are all plain. -/
structure Tree.ArePlain (trees : List Tree) : Prop where
  orderly : AllOrderly trees
  kinds : ∀ node ∈ nodesOfAll 0 trees, node.2.1.IsPlain

/-- The mark that stands for a node: the opening of its block, if it has one. -/
def NodeKind.mark (kind : NodeKind) : Mark :=
  if kind.hasBlock then .opening kind else .leaf kind

namespace Segment

open Mark

theorem settled_comment {depth : Nat} {body : String} {isLast : Bool}
    (h : ¬['*', '/'] <:+: body.toList) : Settled ⟨depth, .leaf (.comment body), isLast⟩ := by
  have ht : Token.scan? ('/' :: '*' :: (body.toList ++ ['*', '/'])) =
      some ((⟨body.toList ++ ['*', '/'], body.toList, []⟩ : Scan (List Char)).behind
        ['/', '*'] .comment) := by
    rw [← scanComment_of_no_closing h]
    rfl
  have hscan := scan?_of_comment (0 < depth) ht rfl
  simpa [Settled, Mark.text, gap, stop, needsSemicolon, NodeKind.needsSemicolon, Scan.map,
    Scan.behind] using hscan

theorem settled_atRule {depth : Nat} {name params : String} {isLast : Bool}
    (h : (NodeKind.atRule name params true).IsPlain) :
    Settled ⟨depth, .opening (.atRule name params true), isLast⟩ := by
  obtain ⟨before, lexeme, pieces, hlexeme, hscan⟩ := scan?_atRule (g := [' ']) (r := [])
    (0 < depth) h.1 h.2 (List.all_eq_true.mp rfl) (.inr (.inl rfl)) rfl
  have htext : (Mark.opening (.atRule name params true)).text =
      atRuleHead name params ++ [' '] ++ ['{'] := by simp [Mark.text]
  simp only [Settled, gap, stop, needsSemicolon, Bool.false_and, Bool.false_eq_true, if_false,
    List.append_nil]
  rw [htext, hscan, ← hlexeme]
  rfl

theorem settled_rule {depth : Nat} {selector : String} {isLast : Bool}
    (h : (NodeKind.rule selector).IsPlain) :
    Settled ⟨depth, .opening (.rule selector), isLast⟩ := by
  have hd : IsHard '{' := .inr (.inl rfl)
  simp only [Settled, gap, stop, needsSemicolon, Bool.false_and, Bool.false_eq_true, if_false,
    List.append_nil]
  by_cases hempty : selector.toList = []
  · obtain rfl : selector = "" := String.toList_inj.mp hempty
    have hstarts : startsStatement (decide (0 < depth)) (Token.ofChar '{') := trivial
    have hscan := scan?_of_startsStatement (Token.scan?_of_isHard hd []) hstarts
    rw [scanStatement, Prelude.scan_of_ends rfl] at hscan
    exact hscan
  · have hspace : ∀ c ∈ [' '], isSpace c := List.all_eq_true.mp rfl
    have htext : (Mark.opening (.rule selector)).text = selector.toList ++ [' '] ++ ['{'] := by
      have : selector.isEmpty = false := by
        rw [← Bool.not_eq_true, String.isEmpty_iff]
        rintro rfl
        exact hempty rfl
      simp [Mark.text, this]
    have htame : IsTame (selector.toList ++ [' ']) := by
      apply h.1.isTame.append (isTame_of_isSpace hspace)
      rintro c - c' hc' ⟨-, rfl⟩
      simp at hc'
    have hnested := h.1.2.2.1.append (isNested_of_isSpace hspace)
    have htrim : trim (selector.toList ++ [' ']) = selector.toList :=
      h.1.2.1.trim_append (s := []) (by simp) (List.all_eq_true.mp rfl)
    obtain ⟨pieces, hscan⟩ := scan?_tame (r := []) (0 < depth) hd rfl htame
      hnested (by simp) fun c hc => by
        rw [List.head?_append_of_ne_nil _ hempty] at hc
        exact ⟨h.1.isSpace_eq c hc, fun hat => h.2 (hat ▸ hc)⟩
    rw [htext, hscan, htrim, String.ofList_toList]
    rfl

/-- A mark of a plain node without a block is settled. If a closing comes next, a block
has to be open. -/
theorem settled_leaf {depth : Nat} {kind : NodeKind} {isLast : Bool} (h : kind.IsPlain)
    (hsemicolon : kind.needsSemicolon) (hlast : isLast → 0 < depth) :
    Settled ⟨depth, .leaf kind, isLast⟩ := by
  have hd : IsHard (if isLast then '}' else ';') := by cases isLast <;> simp [IsHard]
  have hne : (if isLast then '}' else ';') ≠ '{' := by cases isLast <;> simp
  have hends : Prelude.endsBefore (0 < depth) [if isLast then '}' else ';'] := by
    cases isLast with
    | false => rfl
    | true => simp [Prelude.endsBefore, hlast rfl]
  have hstop : stop ⟨depth, .leaf kind, isLast⟩ = [if isLast then '}' else ';'] := by
    simp [stop, needsSemicolon, hsemicolon]
  have hg := isSpace_of_mem_gap ⟨depth, .leaf kind, isLast⟩
  unfold Settled
  rw [hstop]
  dsimp only
  generalize gap ⟨depth, .leaf kind, isLast⟩ = g at hg ⊢
  cases kind with
  | root => exact h.elim
  | rule selector => cases hsemicolon
  | comment body => cases hsemicolon
  | atRule name params hasBlock =>
    obtain rfl : hasBlock = false := by simpa [NodeKind.needsSemicolon] using hsemicolon
    obtain ⟨before, lexeme, pieces, hlexeme, hscan⟩ :=
      scan?_atRule (r := []) (0 < depth) h.1 h.2 hg hd hends
    rw [Mark.text, hscan, behindPrelude_of_ne hne, hlexeme]
    rfl
  | declaration property value important =>
    obtain ⟨htame, hnested⟩ := isTame_declaration h hg
    obtain ⟨c, cs, hproperty⟩ := List.exists_cons_of_ne_nil
      (fun hnil => h.1.2.1 (String.toList_inj.mp hnil) : property.toList ≠ [])
    have htext := text_declaration_append property value important g
    rw [hproperty] at htext
    have hfirst : isSpace c = false ∧ c ≠ '@' :=
      ⟨h.1.1.isSpace_eq c (by simp [hproperty]), fun hat => h.1.2.2.1 (by simp [hproperty, hat])⟩
    obtain ⟨pieces, hscan⟩ := scan?_tame (r := []) (0 < depth) hd hends htame hnested
      (by simp [htext]) fun c' hc' => by
        obtain rfl : c = c' := by simpa [htext] using hc'
        exact hfirst
    rw [hscan, behindPrelude_of_ne hne, readDeclaration_text h hg]
    rfl

/-- The mark of a plain node is settled, if a block is open when it is closed next. -/
theorem settled_mark {depth : Nat} {kind : NodeKind} {isLast : Bool} (h : kind.IsPlain)
    (hlast : isLast → 0 < kind.mark.depthBehind depth) : Settled ⟨depth, kind.mark, isLast⟩ := by
  cases kind with
  | root => exact h.elim
  | rule selector => exact settled_rule h
  | comment body => exact settled_comment h
  | declaration property value important => exact settled_leaf h rfl hlast
  | atRule name params hasBlock =>
    cases hasBlock with
    | true => exact settled_atRule h
    | false => exact settled_leaf h rfl hlast

end Segment

namespace Tree

theorem mem_nodesOfAll {trees : List Tree} {depth : Nat} {tree : Tree} (h : tree ∈ trees)
    {node : Nat × NodeKind × Option Span} (hnode : node ∈ tree.nodes depth) :
    node ∈ nodesOfAll depth trees := by
  induction trees with
  | nil => simp at h
  | cons other trees ih =>
    rw [nodesOfAll, List.mem_append]
    rcases List.mem_cons.mp h with rfl | h
    · exact .inl hnode
    · exact .inr (ih h)

/-- A mark of a tree is the closing of a block or stands for a node. -/
theorem mem_marks (tree : Tree) {mark : Mark} (h : mark ∈ tree.marks) (depth : Nat) :
    mark = .closing ∨ ∃ node ∈ tree.nodes depth, mark = node.2.1.mark := by
  induction tree using induction generalizing depth with
  | step kind span children ih =>
    have hfirst : (depth, kind, span) ∈ (node kind span children).nodes depth := by
      rw [nodes]
      exact List.mem_cons_self
    cases hblock : kind.hasBlock with
    | false =>
      rw [marks_of_not_hasBlock hblock, List.mem_singleton] at h
      exact .inr ⟨_, hfirst, by simp [h, NodeKind.mark, hblock]⟩
    | true =>
      rw [marks_of_hasBlock hblock, marksOfAll_eq_flatMap] at h
      rcases List.mem_cons.mp h with rfl | h
      · exact .inr ⟨_, hfirst, by simp [NodeKind.mark, hblock]⟩
      · rcases List.mem_append.mp h with h | h
        · obtain ⟨child, hchild, h⟩ := List.mem_flatMap.mp h
          rcases ih child hchild h (depth + 1) with h | ⟨node, hnode, h⟩
          · exact .inl h
          · refine .inr ⟨node, ?_, h⟩
            rw [nodes]
            exact List.mem_cons_of_mem _ (mem_nodesOfAll hchild hnode)
        · exact .inl (List.mem_singleton.mp h)

theorem mem_marksOfAll {trees : List Tree} {mark : Mark} (h : mark ∈ marksOfAll trees) :
    mark = .closing ∨ ∃ node ∈ nodesOfAll 0 trees, mark = node.2.1.mark := by
  rw [marksOfAll_eq_flatMap] at h
  obtain ⟨tree, htree, h⟩ := List.mem_flatMap.mp h
  rcases tree.mem_marks h 0 with h | ⟨node, hnode, h⟩
  · exact .inl h
  · exact .inr ⟨node, mem_nodesOfAll htree hnode, h⟩

/-- Plain trees are settled. -/
theorem ArePlain.allSettled {trees : List Tree} (h : ArePlain trees) : AllSettled trees := by
  rintro ⟨depth, mark, isLast⟩ hs
  obtain ⟨hmem, hclosing, hlast⟩ := (closed_marksOfAll trees).of_mem_segments hs
  rcases mem_marksOfAll hmem with rfl | ⟨node, hnode, rfl⟩
  · exact Segment.settled_closing (hclosing rfl)
  · exact Segment.settled_mark (h.kinds node hnode) hlast

end Tree

namespace Document

/-- A plain document is read back from its layout: its trees are put into a document
without an error, and they are the same but for the spans. -/
theorem bareAll_ofTrees_layout (d : Document) (h : Tree.ArePlain d.trees) (file : Option String) :
    let reading := Reading.ofText (Layout.stylesheet d.trees)
    ((Edit.graftAll .root reading.trees).on (.empty file)).1 = .ok () ∧
      Tree.bareAll (ofTrees file reading.trees).trees = Tree.bareAll d.trees := by
  dsimp only
  obtain ⟨horderly, -⟩ := Reading.orderly_ofText (Layout.stylesheet d.trees)
  obtain ⟨new, d', hon, -⟩ := (linked_empty file).graftAll_on (get?_empty_root file) _
    (fun _ => rfl) horderly.allHoused
  rw [hon, trees_ofTrees file horderly.allHoused]
  exact ⟨rfl, h.allSettled.bareAll_eq h.orderly⟩

/-- A media block with a rule and a comment, next to a statement without a block. -/
def ofMediaBlock : Document :=
  [.create (.atRule "import" "url(a(b).css)" false), .append .root ⟨2⟩,
    .create (.atRule "media" "(--m)" true), .append .root ⟨3⟩, .create (.rule "a > [b]"),
    .append ⟨3⟩ ⟨4⟩, .create (.comment " * "), .append ⟨4⟩ ⟨5⟩,
    .create (.declaration "margin" "0 calc(1em - 2px)"), .append ⟨4⟩ ⟨6⟩].foldl Operation.apply
      (.empty none)

theorem bareAll_ofTrees_layout_ofMediaBlock :
    let reading := Reading.ofText (Layout.stylesheet ofMediaBlock.trees)
    Tree.ArePlain ofMediaBlock.trees ∧
      ((Edit.graftAll .root reading.trees).on (.empty none)).1 = .ok () ∧
      Tree.bareAll (ofTrees none reading.trees).trees = Tree.bareAll ofMediaBlock.trees := by
  have h : Tree.ArePlain ofMediaBlock.trees := ⟨by decide +kernel, by decide +kernel⟩
  exact ⟨h, bareAll_ofTrees_layout ofMediaBlock h none⟩

end Document

end Typography
