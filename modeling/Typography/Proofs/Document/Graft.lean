import Typography.Proofs.Document.Place

/-!
# Documents of trees

Grafting creates the nodes of trees below a node. Where every node with children
has a block, no step is refused, and the document shows the trees that it was made
of, `Document.trees_ofTrees`.
-/

namespace Typography

namespace Tree

mutual

/-- The nodes with children have a block for them. -/
def Housed : Tree → Prop
  | .node kind _ children => (children ≠ [] → kind.hasBlock) ∧ AllHoused children

/-- The nodes with children have a block for them, in every tree of a list. -/
def AllHoused : List Tree → Prop
  | [] => True
  | tree :: trees => tree.Housed ∧ AllHoused trees

end

@[simp] theorem allHoused_nil : AllHoused [] := trivial

@[simp] theorem allHoused_cons {tree : Tree} {trees : List Tree} :
    AllHoused (tree :: trees) ↔ tree.Housed ∧ AllHoused trees := Iff.rfl

end Tree

namespace Edit

open Document

mutual

theorem Kept.keeps_graft {P : Document → Prop} (h : Kept P) (parent : NodeId) :
    ∀ tree, (graft parent tree).Keeps P
  | .node kind span children =>
    (h.keeps_create kind).bind fun id => (h.keeps_append parent id).bind fun _ =>
      (h.keeps_setSpan id span).bind fun _ => Kept.keeps_graftAll h id children

theorem Kept.keeps_graftAll {P : Document → Prop} (h : Kept P) (parent : NodeId) :
    ∀ trees, (graftAll parent trees).Keeps P
  | [] => keeps_pure _
  | tree :: trees =>
    (Kept.keeps_graft h parent tree).bind fun _ => Kept.keeps_graftAll h parent trees

end

end Edit

namespace Document

/-- What grafting trees below `p` comes to. -/
structure Grafted (trees : List Tree) (p : NodeId) (node : Node) (new : List Branch)
    (d d' : Document) : Prop where
  linked : d'.Linked
  get?_parent : d'.get? p = some { node with children := node.children ++ new.map Branch.id }
  stands : Branch.AllStand d' (some p) new
  trees_eq : Branch.trees new = trees
  le_serial : ∀ x ∈ Branch.idsOfAll new, d.slots.size ≤ x.serial
  sameBut : SameBut [p] d d'
  live : ∀ x, d'.contains x → d.contains x ∨ x ∈ Branch.idsOfAll new

variable {d d' d'' : Document}

theorem Grafted.nil (h : d.Linked) {p : NodeId} {node : Node} (hp : d.get? p = some node) :
    Grafted [] p node [] d d where
  linked := h
  get?_parent := by rw [hp, List.map_nil, List.append_nil]
  stands := trivial
  trees_eq := rfl
  le_serial := by simp
  sameBut := .refl _ d
  live := fun _ => .inl

theorem Grafted.append {trees more : List Tree} {p : NodeId} {node : Node} {siblings : List NodeId}
    {new others : List Branch} (hp : d.contains p) (h : Grafted trees p node new d d')
    (hsiblings : siblings = node.children ++ new.map Branch.id)
    (h' : Grafted more p { node with children := siblings } others d' d'') :
    Grafted (trees ++ more) p node (new ++ others) d d'' where
  linked := h'.linked
  get?_parent := by
    rw [h'.get?_parent]
    simp [hsiblings]
  stands := by
    rw [Branch.allStand_append]
    refine ⟨h'.sameBut.allStand h.stands fun x hx hmem => ?_, h'.stands⟩
    have hlt := serial_lt_of_contains hp
    have hle := h.le_serial x hx
    rw [List.mem_singleton.mp hmem] at hle
    omega
  trees_eq := by rw [Branch.trees_append, h.trees_eq, h'.trees_eq]
  le_serial := by
    rw [Branch.idsOfAll_append]
    exact h.sameBut.le_serial_append h.le_serial h'.le_serial
  sameBut := h.sameBut.trans h'.sameBut
  live := by
    rw [Branch.idsOfAll_append]
    exact live_append h.live h'.live

/-- A new node was put behind the children, and then gets its span. -/
theorem Grafted.of_placed {p : NodeId} {node : Node} (hp : d.get? p = some node) {kind : NodeKind}
    (span : Option Span) (hd' : d'.Linked)
    (h : Placed (.node d.nextId kind none []) p node (node.children ++ [d.nextId])
      (d.push (.ofKind kind)) d') :
    Grafted [.node kind span []] p node [.node d.nextId kind span []] d
      (d'.modify d.nextId fun node => { node with span }) := by
  have hpd := contains_of_get? hp
  have hsize : d'.slots.size = d.slots.size + 1 :=
    h.size_eq.trans (size_slots_push d (.ofKind kind))
  have hother : ∀ x, x ≠ d.nextId → x ≠ p → x.serial < d'.slots.size → d'.get? x = d.get? x := by
    intro x hx hxp hlt
    rw [h.sameBut.get?_eq x (by simp [hx, hxp, Branch.id]) (h.size_eq ▸ hlt), get?_push, if_neg hx]
  exact {
    linked := hd'.modify d.nextId (fun _ => rfl) fun _ => rfl
    get?_parent := by
      rw [get?_modify, if_neg (ne_nextId_of_contains hpd), h.get?_parent]
      rfl
    stands := by
      refine ⟨⟨?_, trivial⟩, trivial⟩
      rw [get?_modify, if_pos rfl, h.stands.1]
      rfl
    trees_eq := rfl
    le_serial := by simp [Branch.ids, nextId]
    sameBut := by
      refine ⟨by rw [size_slots_modify, hsize]; exact Nat.le_succ _, fun x hx hlt => ?_⟩
      have hne : x ≠ d.nextId := by
        rintro rfl
        exact Nat.lt_irrefl _ hlt
      rw [get?_modify, if_neg hne,
        hother x hne (fun heq => hx (List.mem_singleton.mpr heq)) (hsize ▸ Nat.lt_succ_of_lt hlt)]
    live := by
      intro x hx
      by_cases hne : x = d.nextId
      · exact .inr (by simp [hne, Branch.ids])
      rw [contains, get?_modify, if_neg hne] at hx
      by_cases hxp : x = p
      · exact .inl (hxp ▸ hpd)
      · rw [hother x hne hxp (serial_lt_of_contains hx)] at hx
        exact .inl hx }

/-- A new node is put behind the children and gets its span. -/
theorem Linked.plant_on (h : d.Linked) {p : NodeId} {node : Node} (hp : d.get? p = some node)
    (hblock : node.kind.hasBlock) (kind : NodeKind) (span : Option Span) :
    ∃ d', (∀ f : NodeId → Edit Unit, (do
        let id ← Edit.create kind
        Edit.append p id
        Edit.setSpan id span
        f id : Edit Unit).on d = (f d.nextId).on d') ∧
      Grafted [.node kind span []] p node [.node d.nextId kind span []] d d' := by
  have hpid := ne_nextId_of_contains (contains_of_get? hp)
  have hpush : (d.push (.ofKind kind)).get? p = some node := by
    rw [get?_push_of_contains (contains_of_get? hp), hp]
  have hleaf : (Branch.node d.nextId kind none []).Stands (d.push (.ofKind kind)) none :=
    ⟨by rw [get?_push, if_pos rfl]; rfl, trivial⟩
  obtain ⟨d₁, hon, hplaced⟩ := (h.push kind).append_on hleaf hpush
    (NodeKind.isContainer_of_hasBlock hblock)
    (fun hroot => ne_nextId_of_contains h.contains_root hroot.symm)
    (fun hmem => hpid (List.mem_singleton.mp hmem))
  rw [Node.opened_of_hasBlock hblock] at hplaced
  rw [Branch.id] at hon
  have hd₁ : d₁.Linked := (Edit.kept_linked.keeps_append p d.nextId).of_on (h.push kind) hon
  refine ⟨_, fun f => ?_, .of_placed hp span hd₁ hplaced⟩
  rw [Edit.on_bind_of_ok (Edit.on_create ..), Edit.on_bind_of_ok hon, Edit.on_bind_of_ok]
  rw [Edit.setSpan, Edit.on_bind_of_ok (by rw [Edit.on_ask, find_of_get? hplaced.stands.1]),
    Edit.on_change]

/-- Trees are put below a node that was planted. -/
theorem Grafted.below {kind : NodeKind} {span : Option Span} {children : List Tree} {p id : NodeId}
    {node : Node} {new : List Branch}
    (h : Grafted [.node kind span []] p node [.node id kind span []] d d') (hp : d.contains p)
    (h' : Grafted children id ⟨kind, some p, [], span⟩ new d' d'') :
    Grafted [.node kind span children] p node [.node id kind span new] d d'' where
  linked := h'.linked
  get?_parent := by
    have hlt := serial_lt_of_contains hp
    have hle := h.le_serial id (by simp [Branch.ids])
    have hpid : p ∉ [id] := by
      rw [List.mem_singleton]
      rintro rfl
      omega
    rw [h'.sameBut.get?_of_contains hpid (contains_of_get? h.get?_parent), h.get?_parent]
    rfl
  stands := ⟨⟨h'.get?_parent, h'.stands⟩, trivial⟩
  trees_eq := by rw [Branch.trees_cons, Branch.tree, h'.trees_eq, Branch.trees_nil]
  le_serial := by
    rw [Branch.idsOfAll_singleton_node, ← List.singleton_append]
    exact h.sameBut.le_serial_append h.le_serial h'.le_serial
  sameBut := by
    refine ⟨Nat.le_trans h.sameBut.size_le h'.sameBut.size_le, fun x hx hlt => ?_⟩
    have hle := h.le_serial id (by simp [Branch.ids])
    have hxid : x ∉ [id] := by
      rw [List.mem_singleton]
      rintro rfl
      omega
    rw [h'.sameBut.get?_eq x hxid (Nat.lt_of_lt_of_le hlt h.sameBut.size_le),
      h.sameBut.get?_eq x hx hlt]
  live := by
    rw [Branch.idsOfAll_singleton_node, ← List.singleton_append]
    exact live_append h.live h'.live

mutual

/-- Grafting a tree puts a branch that shows it behind the children. -/
theorem Linked.graft_on {d : Document} (h : d.Linked) {p : NodeId} {node : Node}
    (hp : d.get? p = some node) (hblock : node.kind.hasBlock) :
    ∀ tree : Tree, tree.Housed → ∃ new d', (Edit.graft p tree).on d = (.ok (), d') ∧
      Grafted [tree] p node new d d'
  | .node kind span children, hhoused => by
    obtain ⟨d₁, hon₁, hplanted⟩ := h.plant_on hp hblock kind span
    obtain ⟨new, d₂, hon₂, hgrafted⟩ := Linked.graftAll_on hplanted.linked hplanted.stands.1.1
      children hhoused.1 hhoused.2
    refine ⟨_, d₂, ?_, hplanted.below (contains_of_get? hp) hgrafted⟩
    rw [Edit.graft, hon₁, hon₂]

/-- Grafting trees puts branches that show them behind the children. -/
theorem Linked.graftAll_on {d : Document} (h : d.Linked) {p : NodeId} {node : Node}
    (hp : d.get? p = some node) :
    ∀ trees : List Tree, (trees ≠ [] → node.kind.hasBlock) → Tree.AllHoused trees →
      ∃ new d', (Edit.graftAll p trees).on d = (.ok (), d') ∧ Grafted trees p node new d d'
  | [], _, _ => ⟨[], d, rfl, .nil h hp⟩
  | tree :: trees, hblock, hhoused => by
    obtain ⟨new, d₁, hon₁, hgrafted⟩ :=
      Linked.graft_on h hp (hblock (List.cons_ne_nil _ _)) tree hhoused.1
    obtain ⟨others, d₂, hon₂, hothers⟩ := Linked.graftAll_on hgrafted.linked hgrafted.get?_parent
      trees (fun _ => hblock (List.cons_ne_nil _ _)) hhoused.2
    refine ⟨new ++ others, d₂, ?_, hgrafted.append (contains_of_get? hp) rfl hothers⟩
    rw [Edit.graftAll, Edit.on_bind_of_ok hon₁, hon₂]

end

/-- A document that is made of trees is one branch, with the trees below its root. -/
theorem exists_branch_ofTrees (file : Option String) {trees : List Tree}
    (h : Tree.AllHoused trees) :
    ∃ new, (Branch.node .root .root none new).Stands (ofTrees file trees) none ∧
      Branch.trees new = trees ∧
      ∀ x, (ofTrees file trees).contains x → x = .root ∨ x ∈ Branch.idsOfAll new := by
  obtain ⟨new, d', hon, hgrafted⟩ := (linked_empty file).graftAll_on (get?_empty_root file) trees
    (fun _ => rfl) h
  have hof : ofTrees file trees = d' := congrArg Prod.snd hon
  rw [hof]
  exact ⟨new, ⟨hgrafted.get?_parent, hgrafted.stands⟩, hgrafted.trees_eq,
    fun x hx => (hgrafted.live x hx).imp_left eq_root_of_contains_empty⟩

/-- A document that is made of trees shows them again. -/
theorem trees_ofTrees (file : Option String) {trees : List Tree} (h : Tree.AllHoused trees) :
    (ofTrees file trees).trees = trees := by
  obtain ⟨new, hroot, htrees, -⟩ := exists_branch_ofTrees file h
  have hlinked : (ofTrees file trees).Linked :=
    Edit.kept_linked.keeps_graftAll .root trees (empty file) (linked_empty file)
  rw [hlinked.trees_eq hroot, htrees]

theorem sound_ofTrees (file : Option String) (trees : List Tree) : (ofTrees file trees).Sound :=
  Edit.kept_sound.keeps_graftAll .root trees (empty file) (sound_empty file)

end Document

end Typography
