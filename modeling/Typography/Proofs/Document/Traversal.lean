import Typography.Proofs.Document.Removal

/-!
# Walking down and climbing up

The walk below a node follows the lists of children, and the test for a node above another one
follows the parents. Nothing in what they follow gets smaller: that they come to an end is due to
the forest that a document is. `Document.Unrolls` and `Document.Ascends` are the rules of the two
recursions, with no bound on how deep or how long they go, so a derivation is a run that ends.
`Document.walk_of_reached` says that there is such a run in every document, however it came
about, and what it answers.
-/

namespace Typography

namespace Document

/-- The nodes of a list, each with the nodes below it behind it: its children, each with the
nodes below it, and so on down. All of them are there. -/
inductive Unrolls (d : Document) : List NodeId → List NodeId → Prop
  | nil : d.Unrolls [] []
  | cons {id : NodeId} {node : Node} {ids below rest : List NodeId} :
    d.get? id = some node → d.Unrolls node.children below → d.Unrolls ids rest →
      d.Unrolls (id :: ids) (id :: (below ++ rest))

/-- Looking for `a` from a node upwards looks at some number of nodes and answers whether it has
found `a`. -/
inductive Ascends (d : Document) (a : NodeId) : NodeId → Nat → Bool → Prop
  | found : d.Ascends a a 1 true
  | ended {x : NodeId} : x ≠ a → d.parent? x = none → d.Ascends a x 1 false
  | climbed {x p : NodeId} {steps : Nat} {answer : Bool} :
    x ≠ a → d.parent? x = some p → d.Ascends a p steps answer →
      d.Ascends a x (steps + 1) answer

/-- The nodes below `id`, each once. A node comes before those below it, and what an earlier
sibling is over comes before what a later one is over. -/
structure IsPreorder (d : Document) (id : NodeId) (ids : List NodeId) : Prop where
  nodup : ids.Nodup
  mem_iff : ∀ x, x ∈ ids ↔ Relation.TransGen d.Above id x
  above_first : ∀ x ∈ ids, ∀ y, Relation.TransGen d.Above x y → [x, y].Sublist ids
  sibling_first : ∀ p, d.Over id p → ∀ a b, [a, b].Sublist (d.childrenOf p) →
    ∀ x y, d.Over a x → d.Over b y → [x, y].Sublist ids

variable {d : Document}

/-- The rules leave no choice. -/
theorem Unrolls.eq {ids result other : List NodeId} (h : d.Unrolls ids result)
    (h' : d.Unrolls ids other) : result = other := by
  induction h generalizing other with
  | nil =>
    cases h'
    rfl
  | cons hn _ _ ihbelow ihrest =>
    cases h' with
    | cons hn' hbelow hrest =>
      obtain rfl := Option.some.inj (hn.symm.trans hn')
      rw [ihbelow hbelow, ihrest hrest]

end Document

namespace Branch

variable {d : Document}

mutual

theorem Stands.unrolls : ∀ {b : Branch} {parent : Option NodeId}, b.Stands d parent →
    ∀ {ids result : List NodeId}, d.Unrolls ids result →
      d.Unrolls (b.id :: ids) (b.ids ++ result)
  | node _ _ _ _, _, hb, _, _, h => .cons hb.1 (AllStand.unrolls hb.2) h

/-- What unrolls is the branches that stand there. -/
theorem AllStand.unrolls : ∀ {bs : List Branch} {parent : Option NodeId}, AllStand d parent bs →
    d.Unrolls (bs.map Branch.id) (idsOfAll bs)
  | [], _, _ => .nil
  | _ :: _, _, hbs => Stands.unrolls hbs.1 (AllStand.unrolls hbs.2)

end

theorem idsOfAll_sublist {bs cs : List Branch} (h : bs.Sublist cs) :
    (idsOfAll bs).Sublist (idsOfAll cs) := by
  induction h with
  | slnil => exact .slnil
  | cons b _ ih => exact ih.trans (List.sublist_append_right b.ids _)
  | cons_cons b _ ih => exact (List.Sublist.refl b.ids).append ih

theorem ids_sublist {b : Branch} {bs : List Branch} (h : b ∈ bs) :
    b.ids.Sublist (idsOfAll bs) := by
  have := idsOfAll_sublist (List.singleton_sublist.mpr h)
  rwa [idsOfAll_cons, idsOfAll_nil, List.append_nil] at this

/-- In a branch a node comes before those below it. -/
theorem Stands.above_first (h : d.Linked) {b : Branch} :
    ∀ {parent : Option NodeId}, b.Stands d parent → ∀ x ∈ b.ids, ∀ y,
      Relation.TransGen d.Above x y → [x, y].Sublist b.ids := by
  induction b using Branch.induction with
  | step id kind span children ih =>
    intro parent hb x hx y hxy
    rw [ids, List.mem_cons] at hx
    rcases hx with rfl | hx
    · have hy := h.mem_ids_of_over hb hxy.to_reflTransGen
      rw [ids, List.mem_cons] at hy
      rcases hy with rfl | hy
      · exact absurd hxy (h.grounded.transGen.irrefl.irrefl _)
      · exact (List.singleton_sublist.mpr hy).cons_cons _
    · obtain ⟨c, hc, hcs, hxc⟩ := hb.2.exists_of_mem hx
      exact ((ih c hc hcs x hxc y hxy).trans (ids_sublist hc)).cons id

/-- In a branch what is over from an earlier sibling comes before what is over from a later
one. -/
theorem Stands.sibling_first (h : d.Linked) {b : Branch} :
    ∀ {parent : Option NodeId}, b.Stands d parent → ∀ p ∈ b.ids, ∀ a c,
      [a, c].Sublist (d.childrenOf p) → ∀ x y, d.Over a x → d.Over c y →
        [x, y].Sublist b.ids := by
  induction b using Branch.induction with
  | step id kind span children ih =>
    intro parent hb p hp a c hac x y hx hy
    rw [ids, List.mem_cons] at hp
    rcases hp with rfl | hp
    · rw [Document.childrenOf_of_get? hb.1] at hac
      obtain ⟨two, hsub, htwo⟩ := List.sublist_map_iff.mp hac
      have hlength : two.length = 2 := by simpa using (congrArg List.length htwo).symm
      obtain ⟨first, second, rfl⟩ := List.length_eq_two.mp hlength
      obtain ⟨rfl, rfl⟩ : a = first.id ∧ c = second.id := by simpa using htwo
      have hfirst := allStand_iff.mp hb.2 first (hsub.subset (by simp))
      have hsecond := allStand_iff.mp hb.2 second (hsub.subset (by simp))
      have hxy : [x, y].Sublist (idsOfAll [first, second]) := by
        rw [idsOfAll_cons, idsOfAll_cons, idsOfAll_nil, List.append_nil]
        exact (List.singleton_sublist.mpr (h.mem_ids_of_over hfirst hx)).append
          (List.singleton_sublist.mpr (h.mem_ids_of_over hsecond hy))
      exact (hxy.trans (idsOfAll_sublist hsub)).cons _
    · obtain ⟨e, he, hes, hpe⟩ := hb.2.exists_of_mem hp
      exact ((ih e he hes p hpe a c hac x y hx hy).trans (ids_sublist he)).cons id

end Branch

namespace Document

variable {d : Document}

theorem Linked.isPreorder (h : d.Linked) {id : NodeId} {kind : NodeKind} {span : Option Span}
    {children : List Branch} {parent : Option NodeId}
    (hb : (Branch.node id kind span children).Stands d parent) :
    d.IsPreorder id (Branch.idsOfAll children) := by
  obtain ⟨hid, hnodup⟩ := List.nodup_cons.mp (h.nodup_ids hb)
  have hmem : ∀ x, x ∈ Branch.idsOfAll children ↔ Relation.TransGen d.Above id x := by
    intro x
    have hover : x ∈ (Branch.node id kind span children).ids ↔ d.Over id x := h.mem_ids_iff hb
    rw [Branch.ids, List.mem_cons, Over, Relation.reflTransGen_iff_eq_or_transGen] at hover
    constructor
    · intro hx
      rcases hover.mp (.inr hx) with rfl | hbelow
      · exact absurd hx hid
      · exact hbelow
    · intro hbelow
      rcases hover.mpr (.inr hbelow) with rfl | hx
      · exact absurd hbelow (h.grounded.transGen.irrefl.irrefl _)
      · exact hx
  -- the topmost node of the branch is the first of its nodes, and none of those below it
  have hrest : ∀ x y, x ∈ Branch.idsOfAll children →
      [x, y].Sublist (Branch.node id kind span children).ids →
        [x, y].Sublist (Branch.idsOfAll children) := by
    intro x y hx hxy
    refine hxy.of_cons_of_ne ?_
    rintro rfl
    exact hid hx
  refine ⟨hnodup, hmem, fun x hx y hxy => ?_, fun p hp a b hab x y hx hy => ?_⟩
  · exact hrest x y hx (hb.above_first h x (List.mem_cons_of_mem _ hx) y hxy)
  · have hpa : d.Above p a := (h.mem_childrenOf_iff p a).mp (hab.subset (by simp))
    refine hrest x y ((hmem x).mpr ?_)
      (hb.sibling_first h p (h.mem_ids_of_over hb hp) a b hab x y hx hy)
    exact (Relation.TransGen.tail' hp hpa).trans_left hx

/-! ### Up from a node -/

/-- What is found is above the node where the search starts, or this node. -/
theorem Ascends.answer_iff {a x : NodeId} {steps : Nat} {answer : Bool}
    (h : d.Ascends a x steps answer) : answer = true ↔ d.Over a x := by
  induction h with
  | found => exact iff_of_true rfl Relation.ReflTransGen.refl
  | @ended x hne hparent =>
    refine iff_of_false Bool.false_ne_true fun hover => ?_
    obtain ⟨p, -, hp⟩ := exists_above_of_over hover hne
    exact Option.some_ne_none p (hp.symm.trans hparent)
  | @climbed x p steps answer hne hparent _ ih =>
    rw [ih]
    refine ⟨fun hover => hover.tail hparent, fun hover => ?_⟩
    obtain ⟨q, hq, hqx⟩ := exists_above_of_over hover hne
    exact Option.some.inj (hqx.symm.trans hparent) ▸ hq

/-- The search takes a step for each node that it looks at. -/
theorem Ascends.length_lineageWithin {a x : NodeId} {steps : Nat} {answer : Bool}
    (h : d.Ascends a x steps answer) : (d.lineageWithin steps x).length = steps := by
  induction h with
  | found =>
    rw [lineageWithin]
    split <;> rfl
  | ended hne hparent =>
    rw [lineageWithin]
    split <;> rfl
  | @climbed x p steps answer hne hparent _ ih =>
    have hp : (d.get? x).bind Node.parent = some p := hparent
    simp only [lineageWithin, hp, List.length_cons, ih]

/-- Parents do not go round, so every search ends. -/
theorem Linked.exists_ascends (h : d.Linked) (a x : NodeId) :
    ∃ steps answer, d.Ascends a x steps answer := by
  induction x using h.grounded.induction with
  | _ x ih =>
    by_cases hne : x = a
    · exact ⟨1, true, hne ▸ .found⟩
    · cases hparent : d.parent? x with
      | none => exact ⟨1, false, .ended hne hparent⟩
      | some p =>
        obtain ⟨steps, answer, hascends⟩ := ih p hparent
        exact ⟨steps + 1, answer, .climbed hne hparent hascends⟩

/-- Nodes that differ from each other are no more than there are. -/
theorem length_le_size {ids : List NodeId} (hnodup : ids.Nodup)
    (hlive : ∀ x ∈ ids, d.contains x) : ids.length ≤ d.size := by
  rw [← length_live]
  exact (List.subperm_of_subset hnodup fun x hx => mem_live_iff.mpr (hlive x hx)).length_le

/-- A search takes no more steps than there are nodes. -/
theorem Linked.steps_le_size (h : d.Linked) {a x : NodeId} {steps : Nat} {answer : Bool}
    (hascends : d.Ascends a x steps answer) : steps ≤ d.size := by
  by_cases hx : d.contains x
  · rw [← hascends.length_lineageWithin]
    exact length_le_size (h.nodup_lineageWithin steps x) fun y hy =>
      h.contains_of_over (over_of_mem_lineageWithin hy) hx
  · -- a stale identifier has no parent, and there is the root at least
    have hone : steps = 1 := by
      cases hascends with
      | found => rfl
      | ended => rfl
      | climbed _ hparent => exact absurd (contains_of_parent? hparent) hx
    rw [hone]
    exact length_le_size (List.nodup_singleton .root) (by simpa using h.contains_root)

/-- The test of an insertion answers what the search does, for stale identifiers too. -/
theorem Linked.mem_lineage_iff_over (h : d.Linked) (a x : NodeId) :
    a ∈ d.lineage x ↔ d.Over a x := by
  by_cases hx : d.contains x
  · exact h.mem_lineage_iff hx
  · refine ⟨over_of_mem_lineageWithin, fun hover => ?_⟩
    have hsize : 0 < d.slots.size := Nat.zero_lt_of_lt (serial_lt_of_contains h.contains_root)
    obtain ⟨levels, hlevels⟩ := Nat.exists_eq_add_of_lt hsize
    have hax : x = a := by
      by_contra hne
      obtain ⟨p, -, hp⟩ := exists_above_of_over hover hne
      exact hx (contains_of_parent? hp)
    rw [lineage, hlevels, hax]
    exact List.mem_cons_self

/-! ### Down from a node -/

/-- A walk ends where its rules do. -/
theorem Linked.exists_walk_eq (h : d.Linked) {id : NodeId} (hid : d.contains id) :
    ∃ ids, d.walk id = .ok ids ∧ d.Unrolls (d.childrenOf id) ids ∧ d.IsPreorder id ids := by
  obtain ⟨node, hn⟩ := exists_get?_of_contains hid
  obtain ⟨b, rfl, hb⟩ := h.exists_branch hn
  obtain ⟨id, kind, span, children⟩ := b
  refine ⟨Branch.idsOfAll children, h.walk_eq hb, ?_, h.isPreorder hb⟩
  rw [Branch.id, childrenOf_of_get? hb.1]
  exact Branch.AllStand.unrolls hb.2

/-- In every document a walk from a node comes to an end and meets the nodes below, each once and
in pre-order; a walk from an identifier that names no node is refused; and a search upwards ends
after no more steps than there are nodes, and finds the node itself and those above it, as the
test of an insertion does. -/
theorem walk_of_reached (h : d.Reached fun _ => True) :
    (∀ id, d.contains id → ∃ ids, d.walk id = .ok ids ∧
        (∀ result, d.Unrolls (d.childrenOf id) result ↔ result = ids) ∧ d.IsPreorder id ids) ∧
      (∀ id, d.contains id = false → d.walk id = .error .unknownNode) ∧
      ∀ a x, (∃ steps answer, d.Ascends a x steps answer) ∧
        (∀ steps answer, d.Ascends a x steps answer →
          steps ≤ d.size ∧ (answer = true ↔ d.Over a x)) ∧
        (a ∈ d.lineage x ↔ d.Over a x) := by
  have hl := h.linked
  refine ⟨fun id hid => ?_, fun id hid => ?_, fun a x =>
    ⟨hl.exists_ascends a x, fun steps answer hascends =>
      ⟨hl.steps_le_size hascends, hascends.answer_iff⟩, hl.mem_lineage_iff_over a x⟩⟩
  · obtain ⟨ids, hwalk, hunrolls, hpreorder⟩ := hl.exists_walk_eq hid
    refine ⟨ids, hwalk, fun result => ⟨fun hresult => hresult.eq hunrolls, ?_⟩, hpreorder⟩
    rintro rfl
    exact hunrolls
  · have hnone : d.get? id = none := by simpa [contains] using hid
    rw [walk, find, hnone]
    rfl

/-- A rule was removed and another one moved below its sibling; a comment stands alone. -/
def ofMovedSibling : Document :=
  [.remove ⟨3⟩, .append ⟨6⟩ ⟨4⟩, .create (.comment "g")].foldl Operation.apply
    (.ofTrees none (Reading.ofText
      "a \x7b b \x7b\x7d c \x7b d \x7b\x7d \x7d e \x7b f \x7b\x7d \x7d \x7d").trees)

/-- The walk meets the moved rule behind its new sibling; from the innermost rule the search for
the outermost one takes four steps, and there is no way on from an identifier that is stale. -/
theorem walk_of_reached_ofMovedSibling :
    (ofMovedSibling.Reached fun _ => True) ∧ ofMovedSibling.contains ⟨2⟩ ∧
      ofMovedSibling.walk ⟨2⟩ = .ok [⟨6⟩, ⟨7⟩, ⟨4⟩, ⟨5⟩] ∧
      ofMovedSibling.IsPreorder ⟨2⟩ [⟨6⟩, ⟨7⟩, ⟨4⟩, ⟨5⟩] ∧
      ofMovedSibling.contains ⟨3⟩ = false ∧ ofMovedSibling.walk ⟨3⟩ = .error .unknownNode ∧
      ofMovedSibling.Ascends ⟨2⟩ ⟨5⟩ 4 true ∧ 4 ≤ ofMovedSibling.size ∧
      ofMovedSibling.Over ⟨2⟩ ⟨5⟩ := by
  have hreached : ofMovedSibling.Reached fun _ => True :=
    (Reached.read none
      "a \x7b b \x7b\x7d c \x7b d \x7b\x7d \x7d e \x7b f \x7b\x7d \x7d \x7d").foldl
        fun _ _ => trivial
  obtain ⟨hlive, hstale, hsearch⟩ := walk_of_reached hreached
  have hwalk : ofMovedSibling.walk ⟨2⟩ = .ok [⟨6⟩, ⟨7⟩, ⟨4⟩, ⟨5⟩] := by decide +kernel
  have hcontains : ofMovedSibling.contains ⟨2⟩ := by decide +kernel
  have hgone : ofMovedSibling.contains ⟨3⟩ = false := by decide +kernel
  obtain ⟨ids, hids, -, hpreorder⟩ := hlive ⟨2⟩ hcontains
  obtain rfl : [⟨6⟩, ⟨7⟩, ⟨4⟩, ⟨5⟩] = ids := Except.ok.inj (hwalk.symm.trans hids)
  have hascends : ofMovedSibling.Ascends ⟨2⟩ ⟨5⟩ 4 true :=
    .climbed (by decide) (by decide +kernel : ofMovedSibling.parent? ⟨5⟩ = some ⟨4⟩)
      (.climbed (by decide) (by decide +kernel : ofMovedSibling.parent? ⟨4⟩ = some ⟨6⟩)
        (.climbed (by decide) (by decide +kernel : ofMovedSibling.parent? ⟨6⟩ = some ⟨2⟩)
          .found))
  obtain ⟨hsteps, hanswer⟩ := (hsearch ⟨2⟩ ⟨5⟩).2.1 4 true hascends
  exact ⟨hreached, hcontains, hwalk, hpreorder, hgone, hstale ⟨3⟩ hgone, hascends, hsteps,
    hanswer.mp rfl⟩

end Document

end Typography
