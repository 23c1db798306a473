import Typography.Proofs.Document.Invariant

/-!
# Putting branches in place

The edits on the tree as edits of branches. A branch without a parent is put
below a node, at the end or before a child, and a branch is removed from below its
parent. Each time the list of children changes at one place, the nodes of the
branch come or go, and the document is the same but for these,
`Document.SameBut`.
-/

namespace Typography.Document

/-- The nodes that there were are the same, except for those touched. -/
structure SameBut (touched : List NodeId) (d d' : Document) : Prop where
  size_le : d.slots.size ≤ d'.slots.size
  get?_eq : ∀ x, x ∉ touched → x.serial < d.slots.size → d'.get? x = d.get? x

namespace SameBut

variable {d d' d'' : Document} {touched more : List NodeId}

theorem refl (touched : List NodeId) (d : Document) : SameBut touched d d :=
  ⟨Nat.le_refl _, fun _ _ _ => rfl⟩

theorem trans (h : SameBut touched d d') (h' : SameBut touched d' d'') :
    SameBut touched d d'' := by
  refine ⟨Nat.le_trans h.size_le h'.size_le, fun x hx hlt => ?_⟩
  rw [h'.get?_eq x hx (Nat.lt_of_lt_of_le hlt h.size_le), h.get?_eq x hx hlt]

theorem mono (h : SameBut touched d d') (hsub : ∀ x ∈ touched, x ∈ more ∨ d.slots.size ≤ x.serial) :
    SameBut more d d' := by
  refine ⟨h.size_le, fun x hx hlt => h.get?_eq x (fun hmem => ?_) hlt⟩
  rcases hsub x hmem with hmore | hge
  · exact hx hmore
  · omega

theorem get?_of_contains (h : SameBut touched d d') {x : NodeId} (hx : x ∉ touched)
    (hlive : d.contains x) : d'.get? x = d.get? x :=
  h.get?_eq x hx (serial_lt_of_contains hlive)

/-- A branch away from what was touched stands as before. -/
theorem stands (h : SameBut touched d d') {parent : Option NodeId} {b : Branch}
    (hb : b.Stands d parent) (hdisjoint : ∀ x ∈ b.ids, x ∉ touched) : b.Stands d' parent :=
  hb.congr fun x hx => h.get?_of_contains (hdisjoint x hx) (hb.contains x hx)

theorem allStand (h : SameBut touched d d') {parent : Option NodeId} {bs : List Branch}
    (hbs : Branch.AllStand d parent bs) (hdisjoint : ∀ x ∈ Branch.idsOfAll bs, x ∉ touched) :
    Branch.AllStand d' parent bs := by
  rw [Branch.allStand_iff] at hbs ⊢
  exact fun b hb => h.stands (hbs b hb) fun x hx =>
    hdisjoint x (Branch.mem_idsOfAll_iff.mpr ⟨b, hb, hx⟩)

/-- Nodes that come in two steps are new since before the first. -/
theorem le_serial_append (h : SameBut touched d d') {first second : List NodeId}
    (hfirst : ∀ x ∈ first, d.slots.size ≤ x.serial)
    (hsecond : ∀ x ∈ second, d'.slots.size ≤ x.serial) :
    ∀ x ∈ first ++ second, d.slots.size ≤ x.serial :=
  List.forall_mem_append.mpr ⟨hfirst, fun x hx => Nat.le_trans h.size_le (hsecond x hx)⟩

end SameBut

variable {d d' d'' : Document}

/-- The nodes that come in two steps are those of the first and those of the second. -/
theorem live_append {first second : List NodeId}
    (hfirst : ∀ x, d'.contains x → d.contains x ∨ x ∈ first)
    (hsecond : ∀ x, d''.contains x → d'.contains x ∨ x ∈ second) :
    ∀ x, d''.contains x → d.contains x ∨ x ∈ first ++ second := by
  intro x hx
  rw [List.mem_append]
  rcases hsecond x hx with hx | hx
  · exact (hfirst x hx).imp_right .inl
  · exact .inr (.inr hx)

theorem Linked.not_mem_childrenOf (h : d.Linked) {c : NodeId} (hc : d.parent? c = none)
    (p : NodeId) : c ∉ d.childrenOf p := by
  intro hmem
  rw [h.mem_childrenOf_iff, hc] at hmem
  simp at hmem

/-- A branch without a parent can be put below every container outside. -/
theorem Linked.insertable (h : d.Linked) {b : Branch} (hb : b.Stands d none) {p : NodeId}
    {node : Node} (hp : d.get? p = some node) (hcontainer : node.kind.isContainer)
    (hroot : b.id ≠ .root) (hout : p ∉ b.ids) : d.Insertable p b.id where
  isContainer := ⟨node, hp, hcontainer⟩
  ne_root := hroot
  contains := hb.contains _ b.id_mem_ids
  not_over ho := hout (h.mem_ids_of_over hb ho)

/-- Where a branch without a parent was put. -/
structure Placed (b : Branch) (p : NodeId) (node : Node) (children : List NodeId)
    (d d' : Document) : Prop where
  get?_parent : d'.get? p = some { node with children }
  stands : b.Stands d' (some p)
  sameBut : SameBut [p, b.id] d d'
  size_eq : d'.slots.size = d.slots.size

theorem Linked.placed_move (h : d.Linked) {b : Branch} (hb : b.Stands d none) {p : NodeId}
    {node : Node} (hp : d.get? p = some node) (hout : p ∉ b.ids) (index : Nat) :
    Placed b p node.opened (node.children.insertIdx index b.id) d (d.move p index b.id) := by
  have hkept : ∀ id other, d.get? id = some other →
      other.children.filter (· ≠ b.id) = other.children := fun id other hn =>
    h.filter_children hn (by rw [hb.parent?]; simp)
  have hpb : p ≠ b.id := fun heq => hout (heq ▸ b.id_mem_ids)
  refine ⟨?_, ?_, ⟨?_, fun x hx _ => ?_⟩, size_slots_move ..⟩
  · rw [h.get?_move, hp, Option.map_some, hkept p node hp]
    simp only [if_true, if_neg hpb, Node.opened]
  · obtain ⟨id, kind, span, children⟩ := b
    rw [Branch.stands_node] at hb ⊢
    have hnodup := h.nodup_ids (b := .node id kind span children) hb
    rw [Branch.ids, List.nodup_cons] at hnodup
    rw [Branch.id] at hpb hkept ⊢
    constructor
    · rw [h.get?_move, hb.1, Option.map_some]
      have hfilter := hkept id _ hb.1
      simp only at hfilter
      simp only [if_true, if_neg hpb.symm, hfilter]
    · refine hb.2.congr fun x hx => ?_
      have hxp : x ≠ p := fun heq => hout (heq ▸ List.mem_cons_of_mem _ hx)
      have hxid : x ≠ id := fun heq => hnodup.1 (heq ▸ hx)
      rw [h.get?_move]
      cases hn : d.get? x with
      | none => rfl
      | some other => simp only [Option.map_some, if_neg hxp, if_neg hxid, hkept x other hn]
  · rw [size_slots_move]
  · simp only [List.mem_cons, List.not_mem_nil, or_false, not_or] at hx
    rw [h.get?_move]
    cases hn : d.get? x with
    | none => rfl
    | some other => simp only [Option.map_some, if_neg hx.1, if_neg hx.2, hkept x other hn]

theorem Linked.childrenOf_detach_of_stands (h : d.Linked) {b : Branch} (hb : b.Stands d none)
    {p : NodeId} {node : Node} (hp : d.get? p = some node) :
    (d.detach b.id).childrenOf p = node.children := by
  rw [h.childrenOf_detach, childrenOf_of_get? hp]
  exact h.filter_children hp (by rw [hb.parent?]; simp)

/-- Appending puts a branch behind the children. -/
theorem Linked.append_on (h : d.Linked) {b : Branch} (hb : b.Stands d none) {p : NodeId}
    {node : Node} (hp : d.get? p = some node) (hcontainer : node.kind.isContainer)
    (hroot : b.id ≠ .root) (hout : p ∉ b.ids) :
    ∃ d', (Edit.append p b.id).on d = (.ok (), d') ∧
      Placed b p node.opened (node.children ++ [b.id]) d d' := by
  have hi := h.insertable hb hp hcontainer hroot hout
  have hplaced := h.placed_move hb hp hout node.children.length
  rw [List.insertIdx_length_self] at hplaced
  refine ⟨_, ?_, hplaced⟩
  rw [Edit.append_on h, h.checkInsertable_eq_ok hi, h.childrenOf_detach_of_stands hb hp]

theorem idxOf_append_cons_self {α : Type} [DecidableEq α] {a : α} {before after : List α}
    (ha : a ∉ before) : (before ++ a :: after).idxOf a = before.length := by
  rw [List.idxOf_append_of_notMem ha, List.idxOf_cons_self, Nat.add_zero]

theorem insertIdx_length_append {α : Type} (a : α) (before after : List α) :
    (before ++ after).insertIdx before.length a = before ++ a :: after := by
  induction before with
  | nil => rw [List.nil_append, List.length_nil, List.insertIdx_zero, List.nil_append]
  | cons b before ih =>
    rw [List.cons_append, List.length_cons, List.insertIdx_succ_cons, ih, List.cons_append]

/-- Without one of its members, a list that has it once is what stands around it. -/
theorem filter_ne_append_cons {α : Type} [DecidableEq α] {a : α} {before after : List α}
    (h : (before ++ a :: after).Nodup) :
    (before ++ a :: after).filter (· ≠ a) = before ++ after := by
  rw [List.nodup_append, List.nodup_cons] at h
  have hbefore : ∀ x ∈ before, x ≠ a := fun x hx => h.2.2 x hx a List.mem_cons_self
  have hafter : ∀ x ∈ after, x ≠ a := fun x hx heq => h.2.1.1 (heq ▸ hx)
  rw [List.filter_append, List.filter_cons_of_neg (by simp),
    List.filter_eq_self.mpr (by simpa using hbefore),
    List.filter_eq_self.mpr (by simpa using hafter)]

/-- Insertion before a child puts a branch at its place. -/
theorem Linked.insertBefore_on (h : d.Linked) {b : Branch} (hb : b.Stands d none)
    {p a : NodeId} {node : Node} {before after : List NodeId} (hp : d.get? p = some node)
    (hchildren : node.children = before ++ a :: after) (hcontainer : node.kind.isContainer)
    (hroot : b.id ≠ .root) (hout : p ∉ b.ids) :
    ∃ d', (Edit.insertBefore p a b.id).on d = (.ok (), d') ∧
      Placed b p node.opened (before ++ b.id :: a :: after) d d' := by
  have hi := h.insertable hb hp hcontainer hroot hout
  have hmem : a ∈ d.childrenOf p := by
    rw [childrenOf_of_get? hp, hchildren]
    simp
  have hne : b.id ≠ a := by
    rintro heq
    exact h.not_mem_childrenOf (heq ▸ hb.parent?) p hmem
  have hbefore : a ∉ before := by
    have hnodup := h.nodup_childrenOf p
    rw [childrenOf_of_get? hp, hchildren, List.nodup_append] at hnodup
    exact fun ha => hnodup.2.2 a ha a List.mem_cons_self rfl
  have hplaced := h.placed_move hb hp hout before.length
  rw [hchildren, insertIdx_length_append] at hplaced
  refine ⟨_, ?_, hplaced⟩
  rw [Edit.insertBefore_on h, h.checkInsertable_eq_ok hi,
    h.childrenOf_detach_of_stands hb hp, hchildren, idxOf_append_cons_self hbefore]
  simp only [if_pos hmem, if_neg hne]

/-- Removal takes a branch from below its parent. -/
theorem Linked.remove_on (h : d.Linked) {b : Branch} {p : NodeId} (hb : b.Stands d (some p))
    {node : Node} {before after : List NodeId} (hp : d.get? p = some node)
    (hchildren : node.children = before ++ b.id :: after) :
    ∃ d', (Edit.remove b.id).on d = (.ok (), d') ∧
      d'.get? p = some { node with children := before ++ after } ∧
      (∀ x ∈ b.ids, d'.get? x = none) ∧ SameBut (p :: b.ids) d d' ∧
      d'.slots.size = d.slots.size := by
  obtain ⟨id, kind, span, children⟩ := b
  rw [Branch.id] at hchildren ⊢
  have hroot : id ≠ .root := h.ne_root_of_parent? hb.parent?
  have hout := h.parent_notMem_ids hb
  have hget := h.get?_prune id kind span children
  refine ⟨_, Edit.remove_on h hroot hb, ?_, ?_, ⟨?_, ?_⟩, ?_⟩
  · have hnodup := h.nodup_childrenOf p
    rw [childrenOf_of_get? hp, hchildren] at hnodup
    rw [hget, if_neg hout, hp, Option.map_some, hchildren, filter_ne_append_cons hnodup]
  · intro x hx
    rw [hget, if_pos hx]
  · rw [size_slots_prune]
  · intro x hx _
    rw [List.mem_cons, not_or] at hx
    rw [hget, if_neg hx.2]
    cases hn : d.get? x with
    | none => rfl
    | some other =>
      have hpar : d.parent? id = some p := hb.parent?
      have hfilter := h.filter_children hn (c := id) (by
        rw [hpar]
        simpa using fun heq => hx.1 heq.symm)
      rw [Option.map_some, hfilter]
  · rw [size_slots_prune]

end Typography.Document
