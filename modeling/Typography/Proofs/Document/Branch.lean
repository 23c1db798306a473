import Typography.Proofs.Document.Lineage

/-!
# Branches

A branch is a tree whose nodes carry their identifiers. `Branch.Stands` says that a
document has the nodes of a branch, linked as the branch has them; it is a
statement about the nodes of the branch alone, so a change elsewhere in the
document keeps it, `Branch.Stands.congr`.

In a forest a branch stands at every node, `Linked.exists_branch`. What a walk and
the view as trees answer is read off the branches, `Linked.walk_eq` and
`Linked.trees_eq`, with no levels to count any more.
-/

namespace Typography

/-- A tree whose nodes have identifiers. -/
inductive Branch where
  | node (id : NodeId) (kind : NodeKind) (span : Option Span) (children : List Branch)

namespace Branch

/-- The identifier of the topmost node. -/
def id : Branch → NodeId
  | node id _ _ _ => id

mutual

/-- The tree without the identifiers. -/
def tree : Branch → Tree
  | node _ kind span children => .node kind span (trees children)

/-- The trees of a list of branches. -/
def trees : List Branch → List Tree
  | [] => []
  | b :: bs => b.tree :: trees bs

end

mutual

/-- The identifiers of a branch in pre-order. -/
def ids : Branch → List NodeId
  | node id _ _ children => id :: idsOfAll children

/-- The identifiers of the branches of a list, one branch after the other. -/
def idsOfAll : List Branch → List NodeId
  | [] => []
  | b :: bs => b.ids ++ idsOfAll bs

end

mutual

/-- The document has the nodes of the branch, below `parent`. -/
def Stands (d : Document) (parent : Option NodeId) : Branch → Prop
  | node id kind span children =>
    d.get? id = some ⟨kind, parent, children.map Branch.id, span⟩ ∧
      AllStand d (some id) children

/-- The document has the nodes of the branches, each below `parent`. -/
def AllStand (d : Document) (parent : Option NodeId) : List Branch → Prop
  | [] => True
  | b :: bs => b.Stands d parent ∧ AllStand d parent bs

end

/-- Induction on a branch, with the statement for every branch below. -/
@[elab_as_elim]
theorem induction {P : Branch → Prop}
    (step : ∀ id kind span children, (∀ b ∈ children, P b) → P (node id kind span children)) :
    ∀ b, P b
  | node id kind span children => step id kind span children fun b _ => induction step b
termination_by b => sizeOf b
decreasing_by
  have := List.sizeOf_lt_of_mem ‹_ ∈ children›
  simp only [node.sizeOf_spec]
  omega

@[simp] theorem trees_nil : trees [] = [] := rfl

@[simp] theorem trees_cons (b : Branch) (bs : List Branch) :
    trees (b :: bs) = b.tree :: trees bs := rfl

@[simp] theorem trees_append (bs cs : List Branch) : trees (bs ++ cs) = trees bs ++ trees cs := by
  induction bs with
  | nil => rfl
  | cons b bs ih => rw [List.cons_append, trees_cons, trees_cons, ih, List.cons_append]

theorem trees_eq_map (bs : List Branch) : trees bs = bs.map tree := by
  induction bs with
  | nil => rfl
  | cons b bs ih => rw [trees_cons, List.map_cons, ih]

@[simp] theorem idsOfAll_nil : idsOfAll [] = [] := rfl

@[simp] theorem idsOfAll_cons (b : Branch) (bs : List Branch) :
    idsOfAll (b :: bs) = b.ids ++ idsOfAll bs := rfl

@[simp] theorem idsOfAll_append (bs cs : List Branch) :
    idsOfAll (bs ++ cs) = idsOfAll bs ++ idsOfAll cs := by
  induction bs with
  | nil => rfl
  | cons b bs ih =>
    rw [List.cons_append, idsOfAll_cons, idsOfAll_cons, ih, List.append_assoc]

theorem idsOfAll_eq_flatten (bs : List Branch) : idsOfAll bs = (bs.map ids).flatten := by
  induction bs with
  | nil => rfl
  | cons b bs ih => rw [idsOfAll_cons, List.map_cons, List.flatten_cons, ih]

theorem mem_idsOfAll_iff {x : NodeId} {bs : List Branch} :
    x ∈ idsOfAll bs ↔ ∃ b ∈ bs, x ∈ b.ids := by
  rw [idsOfAll_eq_flatten]
  simp

theorem id_mem_ids (b : Branch) : b.id ∈ b.ids := by
  cases b
  simp [ids, id]

theorem id_mem_idsOfAll {b : Branch} {bs : List Branch} (hb : b ∈ bs) : b.id ∈ idsOfAll bs :=
  mem_idsOfAll_iff.mpr ⟨b, hb, b.id_mem_ids⟩

/-- The topmost nodes of branches are among their nodes. -/
theorem mem_idsOfAll_of_mem_map {x : NodeId} {bs : List Branch} (hx : x ∈ bs.map Branch.id) :
    x ∈ idsOfAll bs := by
  obtain ⟨b, hb, rfl⟩ := List.mem_map.mp hx
  exact id_mem_idsOfAll hb

theorem idsOfAll_singleton_node (id : NodeId) (kind : NodeKind) (span : Option Span)
    (children : List Branch) :
    idsOfAll [.node id kind span children] = id :: idsOfAll children := by
  rw [idsOfAll_cons, idsOfAll_nil, List.append_nil, ids]

theorem ids_ne_nil (b : Branch) : b.ids ≠ [] :=
  List.ne_nil_of_mem b.id_mem_ids

theorem idsOfAll_eq_nil_iff {bs : List Branch} : idsOfAll bs = [] ↔ bs = [] := by
  cases bs with
  | nil => simp
  | cons b bs => simp [ids_ne_nil]

theorem length_ids_le {b : Branch} {bs : List Branch} (hb : b ∈ bs) :
    b.ids.length ≤ (idsOfAll bs).length := by
  rw [idsOfAll_eq_flatten]
  exact (List.sublist_flatten_of_mem (List.mem_map_of_mem hb)).length_le

@[simp] theorem allStand_nil (d : Document) (parent : Option NodeId) :
    AllStand d parent [] := trivial

@[simp] theorem allStand_cons {d : Document} {parent : Option NodeId} {b : Branch}
    {bs : List Branch} :
    AllStand d parent (b :: bs) ↔ b.Stands d parent ∧ AllStand d parent bs := Iff.rfl

theorem allStand_iff {d : Document} {parent : Option NodeId} {bs : List Branch} :
    AllStand d parent bs ↔ ∀ b ∈ bs, b.Stands d parent := by
  induction bs with
  | nil => simp
  | cons b bs ih => simp [ih]

theorem stands_node {d : Document} {parent : Option NodeId} {id : NodeId} {kind : NodeKind}
    {span : Option Span} {children : List Branch} :
    (node id kind span children).Stands d parent ↔
      d.get? id = some ⟨kind, parent, children.map Branch.id, span⟩ ∧
        AllStand d (some id) children := Iff.rfl

/-- A node of branches is in one of them. -/
theorem AllStand.exists_of_mem {d : Document} {parent : Option NodeId} {bs : List Branch}
    (h : AllStand d parent bs) {x : NodeId} (hx : x ∈ idsOfAll bs) :
    ∃ b ∈ bs, b.Stands d parent ∧ x ∈ b.ids := by
  obtain ⟨b, hb, hxb⟩ := mem_idsOfAll_iff.mp hx
  exact ⟨b, hb, allStand_iff.mp h b hb, hxb⟩

theorem allStand_append {d : Document} {parent : Option NodeId} {bs cs : List Branch} :
    AllStand d parent (bs ++ cs) ↔ AllStand d parent bs ∧ AllStand d parent cs := by
  induction bs with
  | nil => simp
  | cons b bs ih => simp [ih, and_assoc]

/-- A branch stands wherever its nodes are the same. -/
theorem Stands.congr {d d' : Document} {b : Branch} :
    ∀ {parent : Option NodeId}, b.Stands d parent →
      (∀ x ∈ b.ids, d'.get? x = d.get? x) → b.Stands d' parent := by
  induction b using Branch.induction with
  | step id kind span children ih =>
    intro parent hb hsame
    rw [stands_node] at hb ⊢
    refine ⟨by rw [hsame id (by simp [ids]), hb.1], ?_⟩
    rw [allStand_iff] at hb ⊢
    intro c hc
    refine ih c hc (hb.2 c hc) fun x hx => hsame x ?_
    exact List.mem_cons_of_mem _ (mem_idsOfAll_iff.mpr ⟨c, hc, hx⟩)

theorem AllStand.congr {d d' : Document} {parent : Option NodeId} {bs : List Branch}
    (h : AllStand d parent bs) (hsame : ∀ x ∈ idsOfAll bs, d'.get? x = d.get? x) :
    AllStand d' parent bs := by
  rw [allStand_iff] at h ⊢
  intro b hb
  exact (h b hb).congr fun x hx => hsame x (mem_idsOfAll_iff.mpr ⟨b, hb, hx⟩)

theorem Stands.parent? {d : Document} {parent : Option NodeId} {b : Branch}
    (h : b.Stands d parent) : d.parent? b.id = parent := by
  cases b
  exact Document.parent?_of_get? h.1

theorem Stands.span_eq {d : Document} {parent : Option NodeId} {b : Branch}
    (h : b.Stands d parent) {node : Node} (hn : d.get? b.id = some node) :
    b.tree.span = node.span := by
  cases b
  exact congrArg Node.span (Option.some.inj (h.1.symm.trans hn))

theorem Stands.contains {d : Document} {b : Branch} :
    ∀ {parent : Option NodeId}, b.Stands d parent → ∀ x ∈ b.ids, d.contains x := by
  induction b using Branch.induction with
  | step id kind span children ih =>
    intro parent hb x hx
    rw [ids, List.mem_cons] at hx
    rcases hx with rfl | hx
    · exact Document.contains_of_get? hb.1
    · obtain ⟨c, hc, hcs, hxc⟩ := hb.2.exists_of_mem hx
      exact ih c hc hcs x hxc

theorem AllStand.contains {d : Document} {parent : Option NodeId} {bs : List Branch}
    (h : AllStand d parent bs) : ∀ x ∈ idsOfAll bs, d.contains x := by
  intro x hx
  obtain ⟨b, -, hb, hxb⟩ := h.exists_of_mem hx
  exact hb.contains x hxb

/-- The nodes of a branch are those that its topmost node is over. -/
theorem Stands.over_of_mem {d : Document} {b : Branch} :
    ∀ {parent : Option NodeId}, b.Stands d parent → ∀ x ∈ b.ids, d.Over b.id x := by
  induction b using Branch.induction with
  | step id kind span children ih =>
    intro parent hb x hx
    rw [ids, List.mem_cons] at hx
    rcases hx with rfl | hx
    · exact Relation.ReflTransGen.refl
    · obtain ⟨c, hc, hcs, hxc⟩ := hb.2.exists_of_mem hx
      exact Relation.ReflTransGen.head hcs.parent? (ih c hc hcs x hxc)

/-- The children of the nodes of a branch are in the branch. -/
theorem Stands.mem_of_mem_childrenOf {d : Document} {b : Branch} :
    ∀ {parent : Option NodeId}, b.Stands d parent →
      ∀ p ∈ b.ids, ∀ c ∈ d.childrenOf p, c ∈ b.ids := by
  induction b using Branch.induction with
  | step id kind span children ih =>
    intro parent hb p hp c hc
    rw [ids, List.mem_cons] at hp ⊢
    rcases hp with rfl | hp
    · rw [Document.childrenOf_of_get? hb.1] at hc
      exact .inr (mem_idsOfAll_of_mem_map hc)
    · obtain ⟨b, hb', hbs, hpb⟩ := hb.2.exists_of_mem hp
      exact .inr (mem_idsOfAll_iff.mpr ⟨b, hb', ih b hb' hbs p hpb c hc⟩)

end Branch

namespace Document

variable {d : Document}

/-- What is below a node is in the branch that stands there. -/
theorem Linked.mem_ids_of_over (h : d.Linked) {b : Branch} {parent : Option NodeId}
    (hb : b.Stands d parent) {x : NodeId} (hx : d.Over b.id x) : x ∈ b.ids := by
  induction hx with
  | refl => exact b.id_mem_ids
  | tail _ hpc ih =>
    exact hb.mem_of_mem_childrenOf _ ih _ ((h.mem_childrenOf_iff _ _).mpr hpc)

/-- A node is in a branch exactly when the topmost node of the branch is over it. -/
theorem Linked.mem_ids_iff (h : d.Linked) {b : Branch} {parent : Option NodeId}
    (hb : b.Stands d parent) {x : NodeId} : x ∈ b.ids ↔ d.Over b.id x :=
  ⟨hb.over_of_mem x, h.mem_ids_of_over hb⟩

theorem Linked.parent_notMem_ids (h : d.Linked) {b : Branch} {p : NodeId}
    (hb : b.Stands d (some p)) : p ∉ b.ids :=
  fun hmem => h.not_over_of_above hb.parent? (hb.over_of_mem p hmem)

/-- A node is in no branch that stands below it. -/
theorem Linked.parent_notMem_idsOfAll (h : d.Linked) {bs : List Branch} {p : NodeId}
    (hbs : Branch.AllStand d (some p) bs) : p ∉ Branch.idsOfAll bs := by
  intro hmem
  obtain ⟨b, -, hb, hpb⟩ := hbs.exists_of_mem hmem
  exact h.parent_notMem_ids hb hpb

/-- No node is twice in branches that stand beside each other. -/
theorem Linked.nodup_idsOfAll (h : d.Linked) {p : NodeId} {bs : List Branch}
    (hbs : Branch.AllStand d (some p) bs) (hids : (bs.map Branch.id).Nodup)
    (hnodup : ∀ b ∈ bs, b.ids.Nodup) : (Branch.idsOfAll bs).Nodup := by
  induction bs with
  | nil => exact List.nodup_nil
  | cons b bs ih =>
    rw [List.map_cons, List.nodup_cons] at hids
    rw [Branch.allStand_cons] at hbs
    rw [Branch.idsOfAll_cons, List.nodup_append]
    refine ⟨hnodup b List.mem_cons_self,
      ih hbs.2 hids.2 fun c hc => hnodup c (List.mem_cons_of_mem _ hc), ?_⟩
    rintro x hx y hy rfl
    obtain ⟨c, hc, hcs, hxc⟩ := hbs.2.exists_of_mem hy
    have heq : b.id = c.id := h.eq_of_over_of_above hbs.1.parent? hcs.parent?
      (hbs.1.over_of_mem x hx) (hcs.over_of_mem x hxc)
    exact hids.1 (heq ▸ List.mem_map_of_mem hc)

theorem Linked.nodup_ids (h : d.Linked) {b : Branch} :
    ∀ {parent : Option NodeId}, b.Stands d parent → b.ids.Nodup := by
  induction b using Branch.induction with
  | step id kind span children ih =>
    intro parent hb
    have hchildren := Branch.allStand_iff.mp hb.2
    have hids : (children.map Branch.id).Nodup := by
      have := h.nodup_childrenOf id
      rwa [childrenOf_of_get? hb.1] at this
    rw [Branch.ids, List.nodup_cons]
    exact ⟨h.parent_notMem_idsOfAll hb.2,
      h.nodup_idsOfAll hb.2 hids fun c hc => ih c hc (hchildren c hc)⟩

/-- A branch stands at every node: a chain of nodes above it leaves fewer slots with
every level, so the levels end. -/
theorem Linked.exists_branch_below (h : d.Linked) (levels : Nat) :
    ∀ (chain : List NodeId) (id : NodeId) (node : Node), d.get? id = some node →
      (id :: chain).Nodup → (∀ x ∈ chain, d.contains x ∧ d.Over x id) →
      d.slots.size ≤ chain.length + levels →
      ∃ b : Branch, b.id = id ∧ b.Stands d node.parent := by
  induction levels with
  | zero =>
    intro chain id node hn hnodup hchain hlevels
    have := h.length_lt_size (List.nodup_cons.mp hnodup).2 fun x hx => (hchain x hx).1
    omega
  | succ levels ih =>
    intro chain id node hn hnodup hchain hlevels
    have hover : ∀ x ∈ id :: chain, d.contains x ∧ d.Over x id := by
      intro x hx
      rcases List.mem_cons.mp hx with rfl | hx
      · exact ⟨contains_of_get? hn, Relation.ReflTransGen.refl⟩
      · exact hchain x hx
    have hchild : ∀ c ∈ node.children, ∃ b : Branch, b.id = c ∧ b.Stands d (some id) := by
      intro c hc
      have hpc : d.Above id c := by
        rw [← childrenOf_of_get? hn] at hc
        exact (h.mem_childrenOf_iff id c).mp hc
      obtain ⟨child, hchild⟩ := exists_get?_of_contains (contains_of_parent? hpc)
      obtain ⟨b, hb, hs⟩ := ih (id :: chain) c child hchild
        (List.nodup_cons.mpr ⟨fun hmem => h.not_over_of_above hpc (hover c hmem).2, hnodup⟩)
        (fun x hx => ⟨(hover x hx).1, (hover x hx).2.tail hpc⟩)
        (by simp only [List.length_cons]; omega)
      rw [← parent?_of_get? hchild, show d.parent? c = some id from hpc] at hs
      exact ⟨b, hb, hs⟩
    have hlist : ∀ cs : List NodeId, (∀ c ∈ cs, c ∈ node.children) →
        ∃ bs : List Branch, bs.map Branch.id = cs ∧ Branch.AllStand d (some id) bs := by
      intro cs
      induction cs with
      | nil => exact fun _ => ⟨[], rfl, trivial⟩
      | cons c cs ihcs =>
        intro hcs
        obtain ⟨b, hb, hs⟩ := hchild c (hcs c List.mem_cons_self)
        obtain ⟨bs, hbs, hss⟩ := ihcs fun x hx => hcs x (List.mem_cons_of_mem _ hx)
        exact ⟨b :: bs, by rw [List.map_cons, hb, hbs], hs, hss⟩
    obtain ⟨bs, hbs, hs⟩ := hlist node.children fun _ hc => hc
    exact ⟨.node id node.kind node.span bs, rfl, by rw [hbs]; exact hn, hs⟩

theorem Linked.exists_branch (h : d.Linked) {id : NodeId} {node : Node}
    (hn : d.get? id = some node) : ∃ b : Branch, b.id = id ∧ b.Stands d node.parent :=
  h.exists_branch_below d.slots.size [] id node hn (List.nodup_singleton id)
    (by simp) (by simp)

/-- Enough levels for the nodes of branches are enough for their depth. -/
theorem treesWithin_eq {levels : Nat} :
    ∀ {bs : List Branch} {parent : Option NodeId}, Branch.AllStand d parent bs →
      (Branch.idsOfAll bs).length ≤ levels →
      d.treesWithin levels (bs.map Branch.id) = Branch.trees bs := by
  induction levels with
  | zero =>
    intro bs parent _ hlen
    rw [Nat.le_zero, List.length_eq_zero_iff, Branch.idsOfAll_eq_nil_iff] at hlen
    rw [hlen]
    rfl
  | succ levels ih =>
    intro bs parent hbs hlen
    rw [treesWithin, List.filterMap_map, Branch.trees_eq_map, ← List.filterMap_eq_map]
    refine List.filterMap_congr fun b hb => ?_
    have hle := Branch.length_ids_le hb
    obtain ⟨id, kind, span, children⟩ := b
    obtain ⟨hget, hchildren⟩ := Branch.allStand_iff.mp hbs _ hb
    rw [Branch.ids, List.length_cons] at hle
    rw [Function.comp_apply, Function.comp_apply, Branch.id, hget, Option.map_some,
      ih hchildren (by omega), Branch.tree]

theorem mapM_eq_ok_map {ε α β : Type} {f : α → Except ε β} {g : α → β} {l : List α}
    (h : ∀ a ∈ l, f a = .ok (g a)) : l.mapM f = .ok (l.map g) := by
  induction l with
  | nil => rfl
  | cons a l ih =>
    rw [List.mapM_cons, h a List.mem_cons_self, ih fun b hb => h b (List.mem_cons_of_mem a hb)]
    rfl

/-- What is gathered below nodes is read off the branches, if it is put together node by node in
the same way. -/
theorem gatherWithin_eq {join : NodeId → List NodeId → List NodeId} {gather : Branch → List NodeId}
    (hgather : ∀ id kind span children,
      gather (.node id kind span children) = join id (children.map gather).flatten)
    {levels : Nat} :
    ∀ {bs : List Branch} {parent : Option NodeId}, Branch.AllStand d parent bs →
      (Branch.idsOfAll bs).length ≤ levels →
      d.gatherWithin join levels (bs.map Branch.id) = .ok (bs.map gather).flatten := by
  induction levels with
  | zero =>
    intro bs parent _ hlen
    rw [Nat.le_zero, List.length_eq_zero_iff, Branch.idsOfAll_eq_nil_iff] at hlen
    rw [hlen]
    rfl
  | succ levels ih =>
    intro bs parent hbs hlen
    have heach : ∀ b ∈ bs, (do
        let node ← d.find b.id
        let below ← d.gatherWithin join levels node.children
        return join b.id below) = (.ok (gather b) : Except TreeError _) := by
      intro b hb
      have hle := Branch.length_ids_le hb
      obtain ⟨id, kind, span, children⟩ := b
      obtain ⟨hget, hchildren⟩ := Branch.allStand_iff.mp hbs _ hb
      rw [Branch.ids, List.length_cons] at hle
      have hfind : d.find id = .ok ⟨kind, parent, children.map Branch.id, span⟩ := by
        rw [find, hget]
      have hbelow := ih hchildren (by omega)
      rw [Branch.id, hfind]
      change (do
        let below ← d.gatherWithin join levels (children.map Branch.id)
        return join id below : Except TreeError _) = _
      rw [hbelow, hgather]
      rfl
    rw [gatherWithin, List.mapM_map]
    exact congrArg (· >>= _) (mapM_eq_ok_map heach)

/-- There are levels enough below a node for the branch that stands there. -/
theorem Linked.gatherWithin_children (h : d.Linked) {id : NodeId} {kind : NodeKind}
    {span : Option Span} {children : List Branch} {parent : Option NodeId}
    (hb : (Branch.node id kind span children).Stands d parent)
    {join : NodeId → List NodeId → List NodeId} {gather : Branch → List NodeId}
    (hgather : ∀ id kind span children,
      gather (.node id kind span children) = join id (children.map gather).flatten) :
    (do
      let node ← d.find id
      d.gatherWithin join d.slots.size node.children) =
        (.ok (children.map gather).flatten : Except TreeError _) := by
  have hlen := h.length_lt_size (h.nodup_ids hb) hb.contains
  rw [Branch.ids, List.length_cons] at hlen
  have hfind : d.find id = .ok ⟨kind, parent, children.map Branch.id, span⟩ := by
    rw [find, hb.1]
  rw [hfind]
  exact gatherWithin_eq hgather hb.2 (by omega)

/-- A walk meets the nodes of the branch that stands there, but for the topmost. -/
theorem Linked.walk_eq (h : d.Linked) {id : NodeId} {kind : NodeKind} {span : Option Span}
    {children : List Branch} {parent : Option NodeId}
    (hb : (Branch.node id kind span children).Stands d parent) :
    d.walk id = .ok (Branch.idsOfAll children) := by
  rw [Branch.idsOfAll_eq_flatten]
  exact h.gatherWithin_children hb fun id kind span children => by
    rw [Branch.ids, Branch.idsOfAll_eq_flatten]

/-- The branch that stands at the root shows the trees of the document. -/
theorem Linked.trees_eq (h : d.Linked) {kind : NodeKind} {span : Option Span}
    {children : List Branch} {parent : Option NodeId}
    (hb : (Branch.node .root kind span children).Stands d parent) :
    d.trees = Branch.trees children := by
  have hlen := h.length_lt_size (h.nodup_ids hb) hb.contains
  rw [Branch.ids, List.length_cons] at hlen
  rw [trees, hb.1]
  exact treesWithin_eq hb.2 (by omega)

end Document

end Typography
