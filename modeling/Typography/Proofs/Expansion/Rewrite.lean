import Typography.Expansion.Pass
import Typography.Proofs.Stylesheet.Mark

/-!
# Expansion as a rewriting of trees

What an expansion makes of the trees below the root, without a document and
without a pass: a shorthand is replaced by the trees that it stands for, with
everything below it, and any other node is kept above its rewritten children.
-/

namespace Typography

namespace Shorthand

/-- The declarations that the value of a shorthand stands for. -/
def declarationsOf (rootSize : Option String) (raw : String) : List (String × String) :=
  (TypographyValues.ofShorthand (ofText raw) rootSize).declarations

theorem property_ne_of_mem_declarationsOf {rootSize : Option String} {raw : String}
    {pair : String × String} (h : pair ∈ declarationsOf rootSize raw) :
    pair.1 ≠ shorthandName := by
  have hone : ∀ {property : String} {value : Option String},
      TypographyValues.declaration? property value = some pair → pair.1 = property := by
    intro property value hvalue
    unfold TypographyValues.declaration? at hvalue
    split at hvalue
    · split at hvalue
      · simp at hvalue
      · rw [← Option.some.inj hvalue]
    · simp at hvalue
  simp only [declarationsOf, TypographyValues.declarations, List.mem_filterMap, List.mem_cons,
    List.not_mem_nil, or_false, id] at h
  obtain ⟨_, rfl | rfl | rfl, hpair⟩ := h <;> rw [hone hpair] <;> decide

end Shorthand

namespace Tree

/-- The trees of declarations that take the place of a shorthand. -/
def generated (span : Option Span) (declarations : List (String × String)) : List Tree :=
  declarations.map fun (property, value) => .node (.declaration property value false) span []

/-- The trees that take the place of a shorthand with the value `raw`. -/
def replacement (rootSize : Option String) (span : Option Span) (raw : String) : List Tree :=
  let declarations := generated span (Shorthand.declarationsOf rootSize raw)
  match (Shorthand.ofText raw).media with
  | some query => [.node (.atRule "media" ("(" ++ query ++ ")") true) span declarations]
  | none => declarations

mutual

/-- A tree with its shorthands replaced. -/
def expanded (rootSize : Option String) : Tree → List Tree
  | .node kind span children =>
    match kind.shorthand? with
    | some raw => replacement rootSize span raw
    | none => [.node kind span (expandedAll rootSize children)]

/-- Trees with their shorthands replaced. -/
def expandedAll (rootSize : Option String) : List Tree → List Tree
  | [] => []
  | tree :: trees => tree.expanded rootSize ++ expandedAll rootSize trees

end

mutual

/-- The values of the shorthands of a tree that no other shorthand is over. -/
def shorthands : Tree → List String
  | .node kind _ children =>
    match kind.shorthand? with
    | some raw => [raw]
    | none => shorthandsOfAll children

/-- The values of the shorthands of trees that no other shorthand is over. -/
def shorthandsOfAll : List Tree → List String
  | [] => []
  | tree :: trees => tree.shorthands ++ shorthandsOfAll trees

end

theorem expanded_of_shorthand {rootSize : Option String} {kind : NodeKind} {span : Option Span}
    {children : List Tree} {raw : String} (h : kind.shorthand? = some raw) :
    (node kind span children).expanded rootSize = replacement rootSize span raw := by
  rw [expanded, h]

theorem expanded_of_none {rootSize : Option String} {kind : NodeKind} {span : Option Span}
    {children : List Tree} (h : kind.shorthand? = none) :
    (node kind span children).expanded rootSize =
      [.node kind span (expandedAll rootSize children)] := by
  rw [expanded, h]

theorem shorthands_of_shorthand {kind : NodeKind} {span : Option Span} {children : List Tree}
    {raw : String} (h : kind.shorthand? = some raw) :
    (node kind span children).shorthands = [raw] := by
  rw [shorthands, h]

theorem shorthands_of_none {kind : NodeKind} {span : Option Span} {children : List Tree}
    (h : kind.shorthand? = none) :
    (node kind span children).shorthands = shorthandsOfAll children := by
  rw [shorthands, h]

@[simp] theorem expandedAll_nil (rootSize : Option String) : expandedAll rootSize [] = [] := rfl

@[simp] theorem expandedAll_cons (rootSize : Option String) (tree : Tree) (trees : List Tree) :
    expandedAll rootSize (tree :: trees) =
      tree.expanded rootSize ++ expandedAll rootSize trees := rfl

theorem expandedAll_append (rootSize : Option String) (trees more : List Tree) :
    expandedAll rootSize (trees ++ more) =
      expandedAll rootSize trees ++ expandedAll rootSize more := by
  induction trees with
  | nil => rfl
  | cons tree trees ih =>
    rw [List.cons_append, expandedAll_cons, expandedAll_cons, ih, List.append_assoc]

@[simp] theorem shorthandsOfAll_nil : shorthandsOfAll [] = [] := rfl

@[simp] theorem shorthandsOfAll_cons (tree : Tree) (trees : List Tree) :
    shorthandsOfAll (tree :: trees) = tree.shorthands ++ shorthandsOfAll trees := rfl

theorem shorthandsOfAll_append (trees more : List Tree) :
    shorthandsOfAll (trees ++ more) = shorthandsOfAll trees ++ shorthandsOfAll more := by
  induction trees with
  | nil => rfl
  | cons tree trees ih =>
    rw [List.cons_append, shorthandsOfAll_cons, shorthandsOfAll_cons, ih, List.append_assoc]

variable {rootSize : Option String}

theorem shorthandsOfAll_eq_nil_iff {trees : List Tree} :
    shorthandsOfAll trees = [] ↔ ∀ tree ∈ trees, tree.shorthands = [] := by
  induction trees with
  | nil => simp
  | cons tree trees ih => simp [ih]

theorem expandedAll_eq_flatMap (trees : List Tree) :
    expandedAll rootSize trees = trees.flatMap (expanded rootSize) := by
  induction trees with
  | nil => rfl
  | cons tree trees ih => rw [expandedAll_cons, ih, List.flatMap_cons]

theorem shorthandsOfAll_replacement (span : Option Span) (raw : String) :
    shorthandsOfAll (replacement rootSize span raw) = [] := by
  have hgenerated :
      shorthandsOfAll (generated span (Shorthand.declarationsOf rootSize raw)) = [] := by
    rw [shorthandsOfAll_eq_nil_iff]
    intro tree htree
    obtain ⟨pair, hpair, rfl⟩ := List.mem_map.mp htree
    have hproperty := Shorthand.property_ne_of_mem_declarationsOf hpair
    exact shorthands_of_none (if_neg (by simpa using hproperty))
  unfold replacement
  dsimp only
  split
  · rw [shorthandsOfAll_cons, shorthandsOfAll_nil, List.append_nil, shorthands_of_none rfl,
      hgenerated]
  · exact hgenerated

theorem shorthands_of_mem_expanded (tree : Tree) :
    ∀ new ∈ tree.expanded rootSize, new.shorthands = [] := by
  induction tree using induction with
  | step kind span children ih =>
    cases hraw : kind.shorthand? with
    | some raw =>
      rw [expanded_of_shorthand hraw]
      exact shorthandsOfAll_eq_nil_iff.mp (shorthandsOfAll_replacement span raw)
    | none =>
      intro new hnew
      rw [expanded_of_none hraw, List.mem_singleton] at hnew
      rw [hnew, shorthands_of_none hraw, shorthandsOfAll_eq_nil_iff, expandedAll_eq_flatMap]
      intro tree htree
      obtain ⟨child, hchild, htree⟩ := List.mem_flatMap.mp htree
      exact ih child hchild tree htree

/-- An expansion leaves no shorthand. -/
theorem shorthandsOfAll_expandedAll (trees : List Tree) :
    shorthandsOfAll (expandedAll rootSize trees) = [] := by
  rw [shorthandsOfAll_eq_nil_iff, expandedAll_eq_flatMap]
  intro new hnew
  obtain ⟨tree, -, hnew⟩ := List.mem_flatMap.mp hnew
  exact tree.shorthands_of_mem_expanded new hnew

/-- Without shorthands an expansion changes nothing. -/
theorem expandedAll_of_no_shorthands {trees : List Tree} (h : shorthandsOfAll trees = []) :
    expandedAll rootSize trees = trees := by
  have hone : ∀ tree : Tree, tree.shorthands = [] → tree.expanded rootSize = [tree] := by
    intro tree
    induction tree using induction with
    | step kind span children ih =>
      intro htree
      cases hraw : kind.shorthand? with
      | some raw => simp [shorthands_of_shorthand hraw] at htree
      | none =>
        rw [shorthands_of_none hraw, shorthandsOfAll_eq_nil_iff] at htree
        have hbelow : expandedAll rootSize children = children := by
          rw [expandedAll_eq_flatMap, List.flatMap_congr fun child hchild =>
            ih child hchild (htree child hchild), List.flatMap_singleton']
        rw [expanded_of_none hraw, hbelow]
  rw [shorthandsOfAll_eq_nil_iff] at h
  rw [expandedAll_eq_flatMap, List.flatMap_congr fun tree htree => hone tree (h tree htree),
    List.flatMap_singleton']

theorem shorthands_bare (tree : Tree) : tree.bare.shorthands = tree.shorthands := by
  induction tree using induction with
  | step kind span children ih =>
    have hbelow : shorthandsOfAll (bareAll children) = shorthandsOfAll children := by
      clear * - ih
      induction children with
      | nil => rfl
      | cons tree children ih' =>
        rw [bareAll_cons, shorthandsOfAll_cons, shorthandsOfAll_cons, ih tree List.mem_cons_self,
          ih' fun t ht => ih t (List.mem_cons_of_mem _ ht)]
    rw [bare, shorthands, shorthands, hbelow]

theorem shorthandsOfAll_bareAll (trees : List Tree) :
    shorthandsOfAll (bareAll trees) = shorthandsOfAll trees := by
  induction trees with
  | nil => rfl
  | cons tree trees ih =>
    rw [bareAll_cons, shorthandsOfAll_cons, shorthandsOfAll_cons, shorthands_bare, ih]

theorem allOrderly_replacement (span : Option Span) (raw : String) :
    AllOrderly (replacement rootSize span raw) := by
  have hgenerated : AllOrderly (generated span (Shorthand.declarationsOf rootSize raw)) := by
    rw [allOrderly_iff]
    intro tree htree
    obtain ⟨pair, -, rfl⟩ := List.mem_map.mp htree
    exact ⟨by simp, by simp, trivial⟩
  unfold replacement
  dsimp only
  split
  · exact ⟨⟨by simp, fun _ => rfl, hgenerated⟩, trivial⟩
  · exact hgenerated

/-- An expansion leaves orderly trees. -/
theorem AllOrderly.expandedAll {trees : List Tree} (h : AllOrderly trees) :
    AllOrderly (expandedAll rootSize trees) := by
  have hone : ∀ tree : Tree, tree.Orderly → AllOrderly (tree.expanded rootSize) := by
    intro tree
    induction tree using induction with
    | step kind span children ih =>
      intro htree
      cases hraw : kind.shorthand? with
      | some raw =>
        rw [expanded_of_shorthand hraw]
        exact allOrderly_replacement span raw
      | none =>
        rw [expanded_of_none hraw]
        refine ⟨⟨htree.1, fun hne => htree.2.1 ?_, ?_⟩, trivial⟩
        · rintro rfl
          exact hne rfl
        · rw [expandedAll_eq_flatMap, allOrderly_iff]
          intro new hnew
          obtain ⟨child, hchild, hnew⟩ := List.mem_flatMap.mp hnew
          have hchild' := allOrderly_iff.mp htree.2.2 child hchild
          exact allOrderly_iff.mp (ih child hchild hchild') new hnew
  rw [expandedAll_eq_flatMap, allOrderly_iff]
  intro new hnew
  obtain ⟨tree, htree, hnew⟩ := List.mem_flatMap.mp hnew
  exact allOrderly_iff.mp (hone tree (allOrderly_iff.mp h tree htree)) new hnew

end Tree

end Typography
