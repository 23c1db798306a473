import Typography.Proofs.Document.History

/-!
# Every document is a forest

`Document.IsForest` says with the nodes of a document alone what `Document.Linked` says
with its total views: parents and children agree, no child is listed twice, and the way
up from a node ends. Nothing is assumed of the kinds, which may be overwritten, and of
the identifiers that operations are given, which may be stale; the operations keep it
all the same, `Document.isForest_of_reached`.
-/

namespace Typography.Document

/-- The identifiers of a list lead from its first node upwards, from parent to parent,
to a node that has none. -/
def Climbs (d : Document) : List NodeId → Prop
  | [] => False
  | [top] => ∃ node, d.get? top = some node ∧ node.parent = none
  | x :: p :: above => (∃ node, d.get? x = some node ∧ node.parent = some p) ∧ d.Climbs (p :: above)

/-- The nodes of a document form a forest, in which the root is the top of a tree. -/
structure IsForest (d : Document) : Prop where
  root : ∃ node, d.get? .root = some node ∧ node.parent = none
  mem_children_iff : ∀ p c parent child, d.get? p = some parent → d.get? c = some child →
    (c ∈ parent.children ↔ child.parent = some p)
  contains_child : ∀ p parent, d.get? p = some parent → ∀ c ∈ parent.children, d.contains c
  nodup_children : ∀ p parent, d.get? p = some parent → parent.children.Nodup
  eq_of_mem_children : ∀ p q parent other, d.get? p = some parent → d.get? q = some other →
    ∀ c ∈ parent.children, c ∈ other.children → p = q
  exists_climb : ∀ x, d.contains x → ∃ above, d.Climbs (x :: above) ∧ (x :: above).Nodup

variable {d : Document}

/-- The way up from a node meets only nodes over it. -/
theorem over_of_climbs {above : List NodeId} :
    ∀ {x : NodeId}, d.Climbs (x :: above) → ∀ a ∈ x :: above, d.Over a x := by
  induction above with
  | nil =>
    intro x _ a ha
    rw [List.mem_singleton.mp ha]
    exact Relation.ReflTransGen.refl
  | cons p above ih =>
    rintro x ⟨⟨node, hn, hp⟩, hclimbs⟩ a ha
    rcases List.mem_cons.mp ha with rfl | ha
    · exact Relation.ReflTransGen.refl
    · have hpx : d.Above p x := (parent?_of_get? hn).trans hp
      exact (ih hclimbs a ha).tail hpx

/-- Chains of parents do not go round, so the way up ends and meets no node twice. -/
theorem Linked.exists_climb (h : d.Linked) (x : NodeId) (hx : d.contains x) :
    ∃ above, d.Climbs (x :: above) ∧ (x :: above).Nodup := by
  induction x using h.grounded.induction with
  | _ x ih =>
    obtain ⟨node, hn⟩ := exists_get?_of_contains hx
    cases hp : node.parent with
    | none => exact ⟨[], ⟨node, hn, hp⟩, List.nodup_singleton x⟩
    | some p =>
      have hpx : d.Above p x := (parent?_of_get? hn).trans hp
      obtain ⟨above, hclimbs, hnodup⟩ := ih p hpx (h.contains_parent hpx)
      refine ⟨p :: above, ⟨⟨node, hn, hp⟩, hclimbs⟩, List.nodup_cons.mpr ⟨fun hmem => ?_, hnodup⟩⟩
      exact h.not_over_of_above hpx (over_of_climbs hclimbs x hmem)

theorem Linked.isForest (h : d.Linked) : d.IsForest where
  root := by
    obtain ⟨node, hn⟩ := exists_get?_of_contains h.contains_root
    exact ⟨node, hn, (parent?_of_get? hn).symm.trans h.parent?_root⟩
  mem_children_iff := by
    intro p c parent child hp hc
    rw [← childrenOf_of_get? hp, ← parent?_of_get? hc]
    exact h.mem_childrenOf_iff p c
  contains_child := by
    intro p parent hp c hc
    rw [← childrenOf_of_get? hp] at hc
    exact h.contains_child hc
  nodup_children := by
    intro p parent hp
    rw [← childrenOf_of_get? hp]
    exact h.nodup_childrenOf p
  eq_of_mem_children := by
    intro p q parent other hp hq c hc hc'
    rw [← childrenOf_of_get? hp, h.mem_childrenOf_iff] at hc
    rw [← childrenOf_of_get? hq, h.mem_childrenOf_iff, hc] at hc'
    exact Option.some.inj hc'
  exists_climb := h.exists_climb

/-- No operation breaks the links of a document, one that overwrites a kind included. -/
theorem Linked.apply (h : d.Linked) (operation : Operation) : (operation.apply d).Linked := by
  cases operation with
  | setKind id kind => exact Edit.keeps_setKind_linked id kind d h
  | _ => exact keeps_apply Edit.kept_linked h trivial

theorem Reached.linked {allowed : Operation → Prop} (h : d.Reached allowed) : d.Linked := by
  induction h with
  | empty file => exact linked_empty file
  | read file css => exact (sound_ofTrees file (Reading.ofText css).trees).linked
  | step operation _ _ ih => exact ih.apply operation

/-- Whatever operations a document has seen, done or refused, it is a forest. -/
theorem isForest_of_reached (h : d.Reached fun _ => True) : d.IsForest :=
  h.linked.isForest

/-- The root and a declaration get other kinds, a subtree is moved out of one that is
removed then, and stale identifiers are used. -/
def ofOverwrittenKinds : Document :=
  [.setKind ⟨3⟩ (.rule "b"), .create (.comment "c"), .append ⟨3⟩ ⟨4⟩, .append ⟨3⟩ ⟨2⟩,
    .insertBefore .root ⟨2⟩ ⟨4⟩, .remove ⟨2⟩, .append ⟨3⟩ ⟨4⟩, .replaceWith ⟨4⟩ ⟨2⟩,
    .setKind .root (.declaration "type" "1em" false), .create (.atRule "type" "2em" false),
    .append .root ⟨5⟩, .expand .unset].foldl Operation.apply
      (.ofTrees none (Reading.ofText "a \x7b b: c \x7d").trees)

theorem isForest_of_reached_ofOverwrittenKinds :
    (ofOverwrittenKinds.Reached fun _ => True) ∧ ofOverwrittenKinds.IsForest := by
  have hreached : ofOverwrittenKinds.Reached fun _ => True :=
    (Reached.read none "a \x7b b: c \x7d").foldl fun _ _ => trivial
  exact ⟨hreached, isForest_of_reached hreached⟩

end Typography.Document
