import Typography.Proofs.Document.Graft
import Typography.Stylesheet.Reader

/-!
# Trees as marks

Going through a tree from its front to its back one meets its nodes without a block,
and the openings and closings of the blocks. This row of marks is all that there is
to the kinds of a tree, `Tree.bareAll_eq_of_marksOfAll_eq`: where every node with
children has a block, trees with the same marks differ in spans only.
-/

namespace Typography

/-- What is met on the way through trees. -/
inductive Mark where
  | leaf (kind : NodeKind)
  | opening (kind : NodeKind)
  | closing
  deriving DecidableEq, Repr

/-- The kind of the node that a mark stands for. The closing of a block stands for none. -/
def Mark.kind? : Mark → Option NodeKind
  | leaf kind | opening kind => some kind
  | closing => none

/-- The number of open blocks behind a mark, when `depth` are open before it. -/
def Mark.depthBehind (depth : Nat) : Mark → Nat
  | leaf _ => depth
  | opening _ => depth + 1
  | closing => depth - 1

namespace Tree

mutual

/-- The tree without its spans. -/
def bare : Tree → Tree
  | .node kind _ children => .node kind none (bareAll children)

/-- The trees without their spans. -/
def bareAll : List Tree → List Tree
  | [] => []
  | tree :: trees => tree.bare :: bareAll trees

end

mutual

/-- The root is no part of the tree, and only nodes with a block have children. -/
def Orderly : Tree → Prop
  | .node kind _ children =>
    kind ≠ .root ∧ (children ≠ [] → kind.hasBlock) ∧ AllOrderly children

/-- Every tree of a list is orderly. -/
def AllOrderly : List Tree → Prop
  | [] => True
  | tree :: trees => tree.Orderly ∧ AllOrderly trees

end

mutual

/-- Whether a tree is orderly can be decided. -/
def decidableOrderly : ∀ tree : Tree, Decidable tree.Orderly
  | .node kind _ children =>
    have := decidableAllOrderly children
    inferInstanceAs (Decidable (kind ≠ .root ∧ (children ≠ [] → kind.hasBlock) ∧
      AllOrderly children))

def decidableAllOrderly : ∀ trees : List Tree, Decidable (AllOrderly trees)
  | [] => .isTrue trivial
  | tree :: trees =>
    have := decidableOrderly tree
    have := decidableAllOrderly trees
    inferInstanceAs (Decidable (tree.Orderly ∧ AllOrderly trees))

end

instance (trees : List Tree) : Decidable (AllOrderly trees) :=
  decidableAllOrderly trees

mutual

/-- The marks of a tree. -/
def marks : Tree → List Mark
  | .node kind _ children =>
    if kind.hasBlock then .opening kind :: (marksOfAll children ++ [.closing]) else [.leaf kind]

/-- The marks of trees, one tree after the other. -/
def marksOfAll : List Tree → List Mark
  | [] => []
  | tree :: trees => tree.marks ++ marksOfAll trees

end

@[simp] theorem bareAll_nil : bareAll [] = [] := rfl

@[simp] theorem bareAll_cons (tree : Tree) (trees : List Tree) :
    bareAll (tree :: trees) = tree.bare :: bareAll trees := rfl

@[simp] theorem allOrderly_nil : AllOrderly [] := trivial

@[simp] theorem allOrderly_cons {tree : Tree} {trees : List Tree} :
    AllOrderly (tree :: trees) ↔ tree.Orderly ∧ AllOrderly trees := Iff.rfl

theorem allOrderly_iff {trees : List Tree} : AllOrderly trees ↔ ∀ tree ∈ trees, tree.Orderly := by
  induction trees with
  | nil => simp
  | cons tree trees ih => simp [ih]

@[simp] theorem marksOfAll_nil : marksOfAll [] = [] := rfl

@[simp] theorem marksOfAll_cons (tree : Tree) (trees : List Tree) :
    marksOfAll (tree :: trees) = tree.marks ++ marksOfAll trees := rfl

@[simp] theorem marksOfAll_append (trees more : List Tree) :
    marksOfAll (trees ++ more) = marksOfAll trees ++ marksOfAll more := by
  induction trees with
  | nil => rfl
  | cons tree trees ih => rw [List.cons_append, marksOfAll_cons, marksOfAll_cons, ih,
      List.append_assoc]

theorem marks_of_hasBlock {kind : NodeKind} (h : kind.hasBlock) (span : Option Span)
    (children : List Tree) :
    (node kind span children).marks = .opening kind :: (marksOfAll children ++ [.closing]) := by
  rw [marks, if_pos h]

theorem marks_of_not_hasBlock {kind : NodeKind} (h : kind.hasBlock = false) (span : Option Span)
    (children : List Tree) : (node kind span children).marks = [.leaf kind] := by
  rw [marks, h]
  rfl

/-- Orderly trees are housed. -/
theorem AllOrderly.allHoused : ∀ {trees : List Tree}, AllOrderly trees → AllHoused trees
  | [], _ => trivial
  | .node _ _ _ :: _, h => ⟨⟨h.1.2.1, AllOrderly.allHoused h.1.2.2⟩, AllOrderly.allHoused h.2⟩

/-- Induction on a tree, with the statement for every tree below. -/
@[elab_as_elim]
theorem induction {P : Tree → Prop}
    (step : ∀ kind span children, (∀ tree ∈ children, P tree) → P (node kind span children))
    (tree : Tree) : P tree := by
  obtain ⟨kind, span, children⟩ := tree
  exact step kind span children fun tree _ => induction step tree
termination_by sizeOf tree
decreasing_by
  have := List.sizeOf_lt_of_mem ‹_ ∈ children›
  simp only [node.sizeOf_spec]
  omega

/-- The marks of a tree start with no closing. -/
theorem marks_ne_closing_cons (tree : Tree) (marks : List Mark) :
    tree.marks ≠ .closing :: marks := by
  obtain ⟨kind, span, children⟩ := tree
  cases hblock : kind.hasBlock with
  | true => simp [marks_of_hasBlock hblock]
  | false => simp [marks_of_not_hasBlock hblock]

theorem marks_ne_nil (tree : Tree) : tree.marks ≠ [] := by
  obtain ⟨kind, span, children⟩ := tree
  cases hblock : kind.hasBlock with
  | true => simp [marks_of_hasBlock hblock]
  | false => simp [marks_of_not_hasBlock hblock]

/-- Trees are known by their marks up to the end of the list, if each tree of one
list is known by its own. -/
theorem bareAll_eq_of_each {trees : List Tree}
    (heach : ∀ tree ∈ trees, ∀ {tree' : Tree} {k k' : List Mark}, tree'.Orderly →
      tree.marks ++ k = tree'.marks ++ k' → tree.bare = tree'.bare ∧ k = k') :
    ∀ {trees' : List Tree} {k k' : List Mark}, AllOrderly trees' →
      (∀ mark ∈ k.head?, mark = .closing) → (∀ mark ∈ k'.head?, mark = .closing) →
      marksOfAll trees ++ k = marksOfAll trees' ++ k' →
      bareAll trees = bareAll trees' ∧ k = k' := by
  have hends : ∀ (tree : Tree) (marks k : List Mark), (∀ mark ∈ k.head?, mark = .closing) →
      k ≠ tree.marks ++ marks := by
    intro tree marks k hk heq
    obtain ⟨mark, others, hmarks⟩ := List.exists_cons_of_ne_nil tree.marks_ne_nil
    rw [hmarks] at heq
    have := hk mark (by simp [heq])
    exact tree.marks_ne_closing_cons others (this ▸ hmarks)
  induction trees with
  | nil =>
    intro trees' k k' h' hk hk' heq
    cases trees' with
    | nil => exact ⟨rfl, heq⟩
    | cons tree' trees' =>
      rw [marksOfAll_nil, List.nil_append, marksOfAll_cons, List.append_assoc] at heq
      exact absurd heq (hends tree' _ k hk)
  | cons tree trees ih =>
    intro trees' k k' h' hk hk' heq
    cases trees' with
    | nil =>
      rw [marksOfAll_nil, List.nil_append, marksOfAll_cons, List.append_assoc] at heq
      exact absurd heq.symm (hends tree _ k' hk')
    | cons tree' trees' =>
      rw [marksOfAll_cons, marksOfAll_cons, List.append_assoc, List.append_assoc] at heq
      obtain ⟨htree, hrest⟩ := heach tree List.mem_cons_self h'.1 heq
      obtain ⟨htrees, hk⟩ :=
        ih (fun other hmem => heach other (List.mem_cons_of_mem _ hmem)) h'.2 hk hk' hrest
      rw [bareAll_cons, bareAll_cons, htree, htrees]
      exact ⟨rfl, hk⟩

theorem bare_eq_of_marks_append_eq (tree : Tree) :
    ∀ {tree' : Tree} {k k' : List Mark}, tree.Orderly → tree'.Orderly →
      tree.marks ++ k = tree'.marks ++ k' → tree.bare = tree'.bare ∧ k = k' := by
  induction tree using induction with
  | step kind span children ih =>
    rintro ⟨kind', span', children'⟩ k k' h h' heq
    have hnil : kind.hasBlock = false → children = [] := fun hblock => by
      by_contra hne
      simp [h.2.1 hne] at hblock
    have hnil' : kind'.hasBlock = false → children' = [] := fun hblock => by
      by_contra hne
      simp [h'.2.1 hne] at hblock
    cases hblock : kind.hasBlock <;> cases hblock' : kind'.hasBlock
    · rw [marks_of_not_hasBlock hblock, marks_of_not_hasBlock hblock'] at heq
      simp only [List.cons_append, List.nil_append, List.cons.injEq, Mark.leaf.injEq] at heq
      rw [bare, bare, hnil hblock, hnil' hblock', heq.1]
      exact ⟨rfl, heq.2⟩
    · rw [marks_of_not_hasBlock hblock, marks_of_hasBlock hblock'] at heq
      simp at heq
    · rw [marks_of_hasBlock hblock, marks_of_not_hasBlock hblock'] at heq
      simp at heq
    · rw [marks_of_hasBlock hblock, marks_of_hasBlock hblock'] at heq
      simp only [List.cons_append, List.append_assoc, List.cons.injEq, Mark.opening.injEq,
        List.nil_append] at heq
      obtain ⟨hbelow, hk⟩ := bareAll_eq_of_each
        (fun tree hmem => ih tree hmem (allOrderly_iff.mp h.2.2 tree hmem)) h'.2.2
        (by simp) (by simp) heq.2
      rw [bare, bare, heq.1, hbelow]
      exact ⟨rfl, (List.cons.inj hk).2⟩

/-- Orderly trees with the same marks differ in spans only. -/
theorem bareAll_eq_of_marksOfAll_eq {trees trees' : List Tree} (h : AllOrderly trees)
    (h' : AllOrderly trees') (heq : marksOfAll trees = marksOfAll trees') :
    bareAll trees = bareAll trees' := by
  refine (bareAll_eq_of_each (fun tree hmem _ _ _ htree' heq' => ?_) h' (by simp) (by simp)
    (congrArg (· ++ []) heq)).1
  exact bare_eq_of_marks_append_eq tree (allOrderly_iff.mp h tree hmem) htree' heq'

theorem bareAll_eq_map (trees : List Tree) : bareAll trees = trees.map bare := by
  induction trees with
  | nil => rfl
  | cons tree trees ih => rw [bareAll_cons, ih, List.map_cons]

theorem marksOfAll_eq_flatMap (trees : List Tree) : marksOfAll trees = trees.flatMap marks := by
  induction trees with
  | nil => rfl
  | cons tree trees ih => rw [marksOfAll_cons, ih, List.flatMap_cons]

theorem marks_bare (tree : Tree) : tree.bare.marks = tree.marks := by
  induction tree using induction with
  | step kind span children ih =>
    have hbelow : marksOfAll (bareAll children) = marksOfAll children := by
      rw [bareAll_eq_map, marksOfAll_eq_flatMap, marksOfAll_eq_flatMap, List.flatMap_map]
      exact List.flatMap_congr ih
    rw [bare, marks, marks, hbelow]

theorem marksOfAll_bareAll (trees : List Tree) : marksOfAll (bareAll trees) = marksOfAll trees := by
  rw [bareAll_eq_map, marksOfAll_eq_flatMap, marksOfAll_eq_flatMap, List.flatMap_map]
  exact List.flatMap_congr fun tree _ => tree.marks_bare

/-- Trees that differ in spans only have the same marks, and no others do. -/
theorem bareAll_eq_iff {trees trees' : List Tree} (h : AllOrderly trees)
    (h' : AllOrderly trees') :
    bareAll trees = bareAll trees' ↔ marksOfAll trees = marksOfAll trees' := by
  refine ⟨fun heq => ?_, bareAll_eq_of_marksOfAll_eq h h'⟩
  rw [← marksOfAll_bareAll, heq, marksOfAll_bareAll]

end Tree

end Typography
