import Typography.Proofs.Stylesheet.Plain

/-!
# Heads and frames

What a layout writes of a node is its head, all of it but the block. Around the heads it
writes nothing but what frames them: blanks, new lines, semicolons and curly brackets.
So each mark that stands for a node is seen by its head in the layout, once and in its
order, `Mark.framed_written`.
-/

namespace Typography

/-- What is written of a node, without its block. -/
def NodeKind.head : NodeKind → List Char
  | root => []
  | atRule name params _ => Mark.atRuleHead name params
  | rule selector => selector.toList
  | declaration property value important =>
    property.toList ++ ": ".toList ++ value.toList ++ Mark.flag important
  | comment text => "/*".toList ++ text.toList ++ "*/".toList

namespace Layout

/-- A text that only separates heads, or opens and closes blocks. -/
def IsFrame (text : List Char) : Prop :=
  ∀ c ∈ text, c ∈ [' ', '\n', ';', '{', '}']

/-- The heads stand in the text one behind the other, each once, and all else in the text
is frames. -/
inductive Framed : List (List Char) → List Char → Prop
  | nil {frame : List Char} : IsFrame frame → Framed [] frame
  | cons {frame head text : List Char} {heads : List (List Char)} :
      IsFrame frame → Framed heads text → Framed (head :: heads) (frame ++ head ++ text)

theorem IsFrame.append {frame more : List Char} (h : IsFrame frame) (h' : IsFrame more) :
    IsFrame (frame ++ more) :=
  List.forall_mem_append.mpr ⟨h, h'⟩

theorem isFrame_nil : IsFrame [] := by
  simp [IsFrame]

theorem Framed.frame {frame text : List Char} {heads : List (List Char)} (h : Framed heads text)
    (hframe : IsFrame frame) : Framed heads (frame ++ text) := by
  cases h with
  | nil hrest => exact .nil (hframe.append hrest)
  | cons hfirst hrest =>
    rw [← List.append_assoc, ← List.append_assoc]
    exact .cons (hframe.append hfirst) hrest

end Layout

namespace Mark

open Layout

@[simp] theorem kind?_mark (kind : NodeKind) : kind.mark.kind? = some kind := by
  unfold NodeKind.mark
  split <;> rfl

/-- The mark of a node is its head, with the bracket of its block if it has one. -/
theorem exists_text_mark (kind : NodeKind) :
    ∃ frame, kind.mark.text = kind.head ++ frame ∧ IsFrame frame := by
  cases kind with
  | root => exact ⟨['{'], rfl, by simp [IsFrame]⟩
  | atRule name params hasBlock =>
    cases hasBlock with
    | true => exact ⟨" \x7b".toList, rfl, by simp [IsFrame]⟩
    | false => exact ⟨[], (List.append_nil _).symm, isFrame_nil⟩
  | rule selector =>
    refine ⟨(if selector.isEmpty then [] else [' ']) ++ ['{'], List.append_assoc .., ?_⟩
    split <;> simp [IsFrame]
  | declaration property value important => exact ⟨[], (List.append_nil _).symm, isFrame_nil⟩
  | comment text => exact ⟨[], (List.append_nil _).symm, isFrame_nil⟩

theorem isFrame_newLine (depth : Nat) : IsFrame (newLine depth) := by
  intro c hc
  rcases List.mem_cons.mp hc with rfl | hc
  · simp
  · simp [List.eq_of_mem_replicate hc]

theorem isFrame_between (semicolon opened : Bool) (depth : Nat) (next : Option Mark) :
    IsFrame (between semicolon opened depth next) := by
  have hsemicolon : IsFrame (if semicolon then [';'] else []) := by
    cases semicolon <;> simp [IsFrame]
  unfold between
  split
  · exact hsemicolon
  · split
    · exact isFrame_nil
    · exact isFrame_newLine _
  · exact hsemicolon.append (isFrame_newLine depth)

/-- Marks are written with the heads of their nodes, each once and in their order. -/
theorem framed_written {marks : List Mark}
    (h : ∀ mark ∈ marks, mark = .closing ∨ ∃ kind : NodeKind, mark = kind.mark) (depth : Nat) :
    Framed ((marks.filterMap kind?).map NodeKind.head) (written depth marks) := by
  induction marks generalizing depth with
  | nil => exact .nil isFrame_nil
  | cons mark marks ih =>
    have hrest := (ih (fun other hmem => h other (List.mem_cons_of_mem _ hmem))
      (mark.depthBehind depth)).frame
        (isFrame_between mark.needsSemicolon mark.isOpening (mark.depthBehind depth) marks.head?)
    rw [written_cons, List.append_assoc]
    rcases h mark List.mem_cons_self with rfl | ⟨kind, rfl⟩
    · exact hrest.frame (by simp [IsFrame, text])
    · obtain ⟨frame, htext, hframe⟩ := exists_text_mark kind
      rw [List.filterMap_cons_some (kind?_mark kind), List.map_cons, htext, List.append_assoc]
      exact .cons isFrame_nil (hrest.frame hframe)

end Mark

namespace Tree

theorem framed_marksOfAll (trees : List Tree) :
    Layout.Framed (((marksOfAll trees).filterMap Mark.kind?).map NodeKind.head)
      (Mark.written 0 (marksOfAll trees)) := by
  refine Mark.framed_written (fun mark hmem => ?_) 0
  rcases mem_marksOfAll hmem with hclosing | ⟨node, -, hmark⟩
  · exact .inl hclosing
  · exact .inr ⟨node.2.1, hmark⟩

end Tree

end Typography
