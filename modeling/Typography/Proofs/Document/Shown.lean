import Typography.Proofs.Document.Refusal
import Typography.Proofs.Expansion.Frame
import Typography.Proofs.Stylesheet.Heads

/-!
# A layout shows the whole document

A layout writes the nodes below a node only if this has a block, and nothing at all of a
root. As long as no kind is overwritten, every node with children has a block, and the root
is the only node that is one: new nodes are of other kinds, and no edit makes a node a root
or takes this from it, `Document.Reached.rooted`. So every node below the root is shown, in the
order of the walk, `Document.framed_stylesheet`.
-/

namespace Typography

@[simp] theorem NodeKind.withBlock_eq_root_iff {kind : NodeKind} :
    kind.withBlock = .root ↔ kind = .root := by
  cases kind <;> simp [withBlock]

theorem NewNode.kind_ne_root (node : NewNode) : node.kind ≠ .root := by
  cases node <;> simp [kind]

namespace Document

/-- What a node is, if there is one. -/
def kind? (d : Document) (x : NodeId) : Option NodeKind :=
  (d.get? x).map Node.kind

/-- The root is the one node that is a root. -/
def Rooted (d : Document) : Prop :=
  ∀ x node, d.get? x = some node → (node.kind = .root ↔ x = .root)

/-- The root is the one node that is a root, among the nodes with a serial below `bound`. -/
structure RootedBelow (bound : Nat) (d : Document) : Prop where
  linked : d.Linked
  bound_le : bound ≤ d.slots.size
  kind_eq_root_iff : ∀ x node, x.serial < bound → d.get? x = some node →
    (node.kind = .root ↔ x = .root)

variable {d : Document}

theorem kind?_of_get? {x : NodeId} {node : Node} (h : d.get? x = some node) :
    d.kind? x = some node.kind := by
  rw [kind?, h, Option.map_some]

/-- The edits on the tree leave the roots alone that there are. -/
theorem kept_rootedBelow (bound : Nat) : Edit.Kept (RootedBelow bound) where
  linked _ h := h.linked
  push d kind h := by
    refine ⟨h.linked.push kind, h.bound_le.trans (by simp), fun x node hlt hn => ?_⟩
    have hne : x ≠ d.nextId := by
      rintro rfl
      exact absurd hlt (Nat.not_lt.mpr h.bound_le)
    rw [get?_push, if_neg hne] at hn
    exact h.kind_eq_root_iff x node hlt hn
  setSpan d id span h := by
    refine ⟨h.linked.modify id (fun _ => rfl) fun _ => rfl, h.bound_le.trans (by simp), ?_⟩
    intro x node hlt hn
    rw [get?_modify] at hn
    split at hn
    · obtain ⟨before, hbefore, rfl⟩ := Option.map_eq_some_iff.mp hn
      exact h.kind_eq_root_iff x before hlt hbefore
    · exact h.kind_eq_root_iff x node hlt hn
  move d p index c h hi hindex := by
    refine ⟨h.linked.move hi hindex, h.bound_le.trans (by simp), fun x node hlt hn => ?_⟩
    rw [h.linked.get?_move] at hn
    obtain ⟨before, hbefore, rfl⟩ := Option.map_eq_some_iff.mp hn
    rw [← h.kind_eq_root_iff x before hlt hbefore]
    by_cases hx : x = p <;> simp [hx]
  prune d id kind span children parent h hroot hs := by
    refine ⟨h.linked.prune hs hroot, h.bound_le.trans (by simp), fun x node hlt hn => ?_⟩
    rw [h.linked.get?_prune id kind span children] at hn
    split at hn
    · cases hn
    · obtain ⟨before, hbefore, rfl⟩ := Option.map_eq_some_iff.mp hn
      exact h.kind_eq_root_iff x before hlt hbefore

end Document

namespace Edit

open Document

variable {α : Type} {d : Document}

/-- An edit that is refused without a change brings no node, and so it is one whose nodes are
counted when it is done. -/
theorem IsAtomic.size_slots_on {e : Edit α} (h : e.IsAtomic d)
    (hdone : ∀ a d', e.on d = (.ok a, d') → d'.slots.size = d.slots.size) :
    (e.on d).2.slots.size = d.slots.size := by
  obtain ⟨result, d', hon⟩ : ∃ result d', e.on d = (result, d') := ⟨_, _, rfl⟩
  cases result with
  | error cause =>
    rw [h cause (by rw [hon])]
  | ok a =>
    rw [hon]
    exact hdone a d' hon

theorem size_slots_append (h : d.Linked) (p c : NodeId) :
    ((append p c).on d).2.slots.size = d.slots.size := by
  refine (isAtomic_append h p c).size_slots_on fun _ d' hdone => ?_
  obtain ⟨index, -, -, rfl⟩ := eq_move_of_append h hdone
  exact size_slots_move ..

theorem size_slots_insertBefore (h : d.Linked) (p a c : NodeId) :
    ((insertBefore p a c).on d).2.slots.size = d.slots.size := by
  refine (isAtomic_insertBefore h p a c).size_slots_on fun _ d' hdone => ?_
  rcases eq_move_of_insertBefore h hdone with rfl | ⟨index, -, -, rfl⟩
  · rfl
  · exact size_slots_move ..

theorem size_slots_remove (h : d.Linked) (id : NodeId) :
    ((remove id).on d).2.slots.size = d.slots.size := by
  refine (isAtomic_remove h id).size_slots_on fun _ d' hdone => ?_
  obtain ⟨kind, span, children, parent, -, -, rfl⟩ := eq_prune_of_remove h hdone
  exact size_slots_prune ..

theorem size_slots_replaceWith (h : d.Linked) (a c : NodeId) :
    ((replaceWith a c).on d).2.slots.size = d.slots.size := by
  refine (isAtomic_replaceWith h a c).size_slots_on fun _ d' hdone => ?_
  obtain ⟨p, between, -, hinsert, hremove⟩ := exists_insertBefore_of_replaceWith hdone
  have hbetween := kept_linked.keeps_insertBefore p a c d h
  have hinserted := size_slots_insertBefore h p a c
  rw [hinsert] at hbetween hinserted
  have hremoved := size_slots_remove hbetween a
  rw [hremove] at hremoved
  exact hremoved.trans hinserted

theorem size_slots_setSpan (d : Document) (id : NodeId) (span : Option Span) :
    ((setSpan id span).on d).2.slots.size = d.slots.size := by
  refine (isAtomic_ask_change _ _).size_slots_on fun _ d' hdone => ?_
  obtain ⟨node, between, hfind, hchange⟩ := on_bind_eq_ok hdone
  obtain ⟨-, rfl⟩ := Prod.mk.inj hfind
  cases hchange
  exact size_slots_modify ..

end Edit

namespace Branch

theorem allOrderly_trees_iff {bs : List Branch} :
    Tree.AllOrderly (trees bs) ↔ ∀ b ∈ bs, b.tree.Orderly := by
  rw [Tree.allOrderly_iff, trees_eq_map, List.forall_mem_map]

/-- No node of a branch is a root if its tree is orderly. -/
theorem Stands.kind_ne_root {d : Document} {b : Branch} : ∀ {parent : Option NodeId},
    b.Stands d parent → b.tree.Orderly →
      ∀ x ∈ b.ids, ∀ node, d.get? x = some node → node.kind ≠ .root := by
  induction b using Branch.induction with
  | step id kind span children ih =>
    intro parent hb horderly x hx node hn
    rw [ids, List.mem_cons] at hx
    rcases hx with rfl | hx
    · obtain rfl := Option.some.inj (hb.1.symm.trans hn)
      exact horderly.1
    · obtain ⟨c, hc, hcs, hxc⟩ := hb.2.exists_of_mem hx
      exact ih c hc hcs (allOrderly_trees_iff.mp horderly.2.2 c hc) x hxc node hn

theorem AllStand.kind_ne_root {d : Document} {parent : Option NodeId} {bs : List Branch}
    (hbs : AllStand d parent bs) (horderly : Tree.AllOrderly (trees bs)) :
    ∀ x ∈ idsOfAll bs, ∀ node, d.get? x = some node → node.kind ≠ .root := by
  intro x hx
  obtain ⟨b, hb, hstands, hxb⟩ := hbs.exists_of_mem hx
  exact hstands.kind_ne_root (allOrderly_trees_iff.mp horderly b hb) x hxb

/-- A branch away from the root is an orderly tree. -/
theorem Stands.orderly {d : Document} (hhoused : d.Housed) (hrooted : d.Rooted) {b : Branch} :
    ∀ {parent : Option NodeId}, b.Stands d parent → .root ∉ b.ids → b.tree.Orderly := by
  induction b using Branch.induction with
  | step id kind span children ih =>
    intro parent hb hroot
    rw [ids, List.mem_cons, not_or] at hroot
    refine ⟨fun hkind => hroot.1 ((hrooted id _ hb.1).mp hkind).symm, fun hne => ?_, ?_⟩
    · refine hhoused id _ hb.1 fun hnil => hne ?_
      rw [List.map_eq_nil_iff.mp hnil, trees_nil]
    · refine allOrderly_trees_iff.mpr fun c hc => ?_
      refine ih c hc (allStand_iff.mp hb.2 c hc) fun hmem => hroot.2 ?_
      exact mem_idsOfAll_iff.mpr ⟨c, hc, hmem⟩

theorem map_kind?_of_each {d : Document} {bs : List Branch}
    (heach : ∀ b ∈ bs, b.ids.map d.kind? = (b.tree.marks.filterMap Mark.kind?).map some) :
    (idsOfAll bs).map d.kind? =
      ((Tree.marksOfAll (trees bs)).filterMap Mark.kind?).map some := by
  induction bs with
  | nil => rfl
  | cons b bs ih =>
    rw [idsOfAll_cons, trees_cons, Tree.marksOfAll_cons, List.map_append, List.filterMap_append,
      List.map_append, heach b List.mem_cons_self, ih fun c hc => heach c (List.mem_cons_of_mem _ hc)]

/-- The nodes of an orderly branch, in pre-order, are those that its marks stand for. -/
theorem Stands.map_kind? {d : Document} {b : Branch} : ∀ {parent : Option NodeId},
    b.Stands d parent → b.tree.Orderly →
      b.ids.map d.kind? = (b.tree.marks.filterMap Mark.kind?).map some := by
  induction b using Branch.induction with
  | step id kind span children ih =>
    intro parent hb horderly
    have hkind : d.kind? id = some kind := Document.kind?_of_get? hb.1
    rw [ids, tree, List.map_cons, hkind]
    cases hblock : kind.hasBlock with
    | true =>
      have hbelow := map_kind?_of_each fun c hc =>
        ih c hc (allStand_iff.mp hb.2 c hc) (allOrderly_trees_iff.mp horderly.2.2 c hc)
      rw [Tree.marks_of_hasBlock hblock, hbelow]
      simp [Mark.kind?]
    | false =>
      have hnil : trees children = [] := by
        by_contra hne
        simp [horderly.2.1 hne] at hblock
      rw [trees_eq_map, List.map_eq_nil_iff] at hnil
      rw [Tree.marks_of_not_hasBlock hblock, hnil]
      rfl

end Branch

namespace Document

variable {d : Document}

theorem rooted_empty (file : Option String) : (empty file).Rooted := by
  intro x node hn
  rw [get?_empty] at hn
  split at hn
  · rename_i hx
    obtain rfl := Option.some.inj hn
    exact iff_of_true rfl hx
  · cases hn

/-- A document that is made of orderly trees has no root but its own. -/
theorem rooted_ofTrees (file : Option String) {trees : List Tree} (h : Tree.AllOrderly trees) :
    (ofTrees file trees).Rooted := by
  obtain ⟨new, hroot, rfl, hlive⟩ := exists_branch_ofTrees file h.allHoused
  intro x node hn
  rcases hlive x (contains_of_get? hn) with rfl | hx
  · obtain rfl := Option.some.inj (hroot.1.symm.trans hn)
    exact iff_of_true rfl rfl
  · have hkind := hroot.2.kind_ne_root h x hx
    refine iff_of_false (hkind node hn) ?_
    rintro rfl
    exact hkind _ hroot.1 rfl

/-- No operation brings a root. -/
theorem kind_ne_root_of_apply (h : d.Sound) {operation : Operation}
    (hkinds : operation.KeepsKinds) {x : NodeId} {node : Node}
    (hn : (operation.apply d).get? x = some node) (hnew : d.slots.size ≤ x.serial) :
    node.kind ≠ .root := by
  have hgone : d.contains x = false :=
    Bool.eq_false_iff.mpr fun hlive => absurd (serial_lt_of_contains hlive) (Nat.not_lt.mpr hnew)
  -- where there are no more slots than before, no node is new
  have hold : (operation.apply d).slots.size = d.slots.size → node.kind ≠ .root := fun hsize =>
    absurd (hsize ▸ serial_lt_of_contains (contains_of_get? hn)) (Nat.not_lt.mpr hnew)
  cases operation with
  | create new =>
    rw [Operation.apply, Edit.on_create, get?_push] at hn
    split at hn
    · rw [← Option.some.inj hn]
      exact new.kind_ne_root
    · simp [contains, hn] at hgone
  | append p c => exact hold (Edit.size_slots_append h.linked p c)
  | insertBefore p a c => exact hold (Edit.size_slots_insertBefore h.linked p a c)
  | replaceWith a c => exact hold (Edit.size_slots_replaceWith h.linked a c)
  | remove id => exact hold (Edit.size_slots_remove h.linked id)
  | setSpan id span => exact hold (Edit.size_slots_setSpan d id span)
  | setKind id kind => exact hkinds.elim
  | expand options =>
    rw [Operation.apply] at hn
    cases hvalid : options.validate with
    | error cause =>
      rw [expand_of_validate_error hvalid] at hn
      simp [contains, hn] at hgone
    | ok _ =>
      obtain ⟨done, new, hdone, hexpanded⟩ := h.exists_expanded hvalid
      rcases hexpanded.live x (contains_of_get? hn) with hlive | ⟨s, hs, hx⟩
      · rw [hlive] at hgone
        cases hgone
      · obtain ⟨raw, hraw⟩ := Option.isSome_iff_exists.mp (hdone s hs).isSome_shorthand?
        obtain ⟨anchor, hanchor, hkind⟩ := exists_get?_of_shorthand? hraw
        refine (hexpanded.stands s hs).kind_ne_root ?_ x hx node hn
        rw [hexpanded.trees_eq s hs anchor raw hanchor hkind]
        exact Tree.allOrderly_replacement anchor.span raw

theorem Rooted.apply (h : d.Rooted) (hd : d.Sound) {operation : Operation}
    (hkinds : operation.KeepsKinds) : (operation.apply d).Rooted := by
  have hbelow : d.RootedBelow d.slots.size := ⟨hd.linked, Nat.le_refl _, fun x node _ => h x node⟩
  intro x node hn
  rcases Nat.lt_or_ge x.serial d.slots.size with hlt | hge
  · exact (keeps_apply (kept_rootedBelow d.slots.size) hbelow hkinds).kind_eq_root_iff x node hlt hn
  · refine iff_of_false (kind_ne_root_of_apply hd hkinds hn hge) ?_
    rintro rfl
    exact absurd (serial_lt_of_contains hd.linked.contains_root) (Nat.not_lt.mpr hge)

theorem Reached.rooted (h : d.Reached Operation.KeepsKinds) : d.Rooted := by
  induction h with
  | empty file => exact rooted_empty file
  | read file css => exact rooted_ofTrees file (Reading.orderly_ofText css).1
  | step operation hreached hkinds ih => exact ih.apply hreached.sound hkinds

/-- In a document in which no kind was overwritten, the nodes with children have blocks for
them and the root is the only one of its kind. So the layout writes the head of each node
below the root once, in the order of the walk, and nothing else but frames. -/
theorem framed_stylesheet (h : d.Reached Operation.KeepsKinds) :
    (∀ x node, d.get? x = some node → node.children ≠ [] → node.kind.isContainer ∧
      ∀ name params hasBlock, node.kind = .atRule name params hasBlock → hasBlock = true) ∧
    (∀ x node, d.get? x = some node → (node.kind = .root ↔ x = .root)) ∧
    ∃ ids kinds marks, d.walk .root = .ok ids ∧ ids.Nodup ∧
      (∀ x, x ∈ ids ↔ d.Over .root x ∧ x ≠ .root) ∧ ids.map d.kind? = kinds.map some ∧
      Layout.Framed (kinds.map NodeKind.head) (Layout.stylesheet d.trees).toList ∧
      marks.filterMap Mark.kind? = kinds ∧
      (Layout.stylesheet d.trees).toList = Mark.written 0 marks := by
  obtain ⟨hlinked, hhoused⟩ := h.sound
  refine ⟨fun x node hn hne => ?_, h.rooted, ?_⟩
  · have hblock := hhoused x node hn hne
    refine ⟨NodeKind.isContainer_of_hasBlock hblock, fun name params hasBlock hkind => ?_⟩
    rwa [hkind] at hblock
  · obtain ⟨kind, span, bs, hroot, htrees⟩ := hlinked.exists_root
    have hnodup := hlinked.nodup_ids hroot
    rw [Branch.ids, List.nodup_cons] at hnodup
    have hbs := Branch.allStand_iff.mp hroot.2
    have horderly : ∀ b ∈ bs, b.tree.Orderly := fun b hb =>
      (hbs b hb).orderly hhoused h.rooted fun hmem =>
        hnodup.1 (Branch.mem_idsOfAll_iff.mpr ⟨b, hb, hmem⟩)
    have hkinds := Branch.map_kind?_of_each fun b hb => (hbs b hb).map_kind? (horderly b hb)
    rw [htrees, Layout.toList_stylesheet (Branch.allOrderly_trees_iff.mpr horderly)]
    exact ⟨_, _, _, hlinked.walk_eq hroot, hnodup.2, fun _ => hlinked.mem_idsOfAll_iff hroot,
      hkinds, Tree.framed_marksOfAll _, rfl, rfl⟩

/-- A rule with a shorthand that became a media block, and before this an at-rule that was read
without a block, moved there and given a comment. -/
def ofOpenedAtRule : Document :=
  [.expand .unset, .create (.comment "c"), .append ⟨4⟩ ⟨8⟩, .insertBefore ⟨2⟩ ⟨7⟩ ⟨4⟩].foldl
    Operation.apply (.ofTrees none (Reading.ofText "a \x7b type: --m 1em / 2 \x7d @b;").trees)

theorem framed_stylesheet_ofOpenedAtRule :
    ofOpenedAtRule.Reached Operation.KeepsKinds ∧
      Layout.stylesheet ofOpenedAtRule.trees =
        "a \x7b\n    @b \x7b\n        /*c*/\n    \x7d\n    @media (--m) \x7b\n" ++
          "        font-size: 1em;\n        letter-spacing: 2\n    \x7d\n\x7d" ∧
      ofOpenedAtRule.walk .root = .ok [⟨2⟩, ⟨4⟩, ⟨8⟩, ⟨7⟩, ⟨5⟩, ⟨6⟩] ∧
      Layout.Framed (["a", "@b", "/*c*/", "@media (--m)", "font-size: 1em",
        "letter-spacing: 2"].map String.toList) (Layout.stylesheet ofOpenedAtRule.trees).toList := by
  have hreached : ofOpenedAtRule.Reached Operation.KeepsKinds :=
    (Reached.read none "a \x7b type: --m 1em / 2 \x7d @b;").foldl (by simp [Operation.KeepsKinds])
  have hwalk : ofOpenedAtRule.walk .root = .ok [⟨2⟩, ⟨4⟩, ⟨8⟩, ⟨7⟩, ⟨5⟩, ⟨6⟩] := by decide +kernel
  obtain ⟨-, -, ids, kinds, -, hids, -, -, hkinds, hframed, -⟩ := framed_stylesheet hreached
  obtain rfl := Except.ok.inj (hwalk.symm.trans hids)
  have hshown : ([⟨2⟩, ⟨4⟩, ⟨8⟩, ⟨7⟩, ⟨5⟩, ⟨6⟩] : List NodeId).map ofOpenedAtRule.kind? =
      [.rule "a", .atRule "b" "" true, .comment "c", .atRule "media" "(--m)" true,
        .declaration "font-size" "1em" false, .declaration "letter-spacing" "2" false].map some := by
    decide +kernel
  have hkinds' := (List.map_injective_iff.mpr fun _ _ => Option.some.inj) (hkinds.symm.trans hshown)
  refine ⟨hreached, by decide +kernel, hwalk, ?_⟩
  rw [hkinds'] at hframed
  exact hframed

end Document

end Typography
