import Typography.Proofs.Document.Linked

/-!
# Steps that keep the forest

Creating a node, changing what a node says, taking a node away from its parent,
putting it below another one and emptying slots: what each step does to the view
of the document, and that the document stays a forest.
-/

namespace Typography.Document

variable {d : Document}

@[simp] theorem size_slots_push (d : Document) (node : Node) :
    (d.push node).slots.size = d.slots.size + 1 := by
  simp [push]

@[simp] theorem size_slots_modify (d : Document) (id : NodeId) (f : Node → Node) :
    (d.modify id f).slots.size = d.slots.size := by
  simp [modify]

@[simp] theorem size_slots_erase (d : Document) (id : NodeId) :
    (d.erase id).slots.size = d.slots.size := by
  simp [erase]

@[simp] theorem size_slots_eraseAll (d : Document) (ids : List NodeId) :
    (d.eraseAll ids).slots.size = d.slots.size := by
  induction ids generalizing d with
  | nil => rfl
  | cons id ids ih => rw [eraseAll_cons, ih, size_slots_erase]

@[simp] theorem size_slots_detach (d : Document) (id : NodeId) :
    (d.detach id).slots.size = d.slots.size := by
  unfold detach
  split <;> simp

@[simp] theorem size_slots_attach (d : Document) (parent : NodeId) (index : Nat)
    (child : NodeId) : (d.attach parent index child).slots.size = d.slots.size := by
  simp [attach]

@[simp] theorem file_detach (d : Document) (id : NodeId) : (d.detach id).file = d.file := by
  unfold detach
  split <;> rfl

@[simp] theorem file_eraseAll (d : Document) (ids : List NodeId) :
    (d.eraseAll ids).file = d.file := by
  induction ids generalizing d with
  | nil => rfl
  | cons id ids ih => rw [eraseAll_cons, ih, file_erase]

@[simp] theorem file_attach (d : Document) (parent : NodeId) (index : Nat) (child : NodeId) :
    (d.attach parent index child).file = d.file := rfl

/-! ### A new node -/

theorem parent?_push (d : Document) (kind : NodeKind) (id : NodeId) :
    (d.push (.ofKind kind)).parent? id = d.parent? id := by
  rw [parent?, parent?, get?_push]
  split
  · rename_i hid
    rw [hid, get?_nextId]
    rfl
  · rfl

theorem childrenOf_push (d : Document) (kind : NodeKind) (id : NodeId) :
    (d.push (.ofKind kind)).childrenOf id = d.childrenOf id := by
  rw [childrenOf, childrenOf, get?_push]
  split
  · rename_i hid
    rw [hid, get?_nextId]
    rfl
  · rfl

theorem get?_push_of_contains {node : Node} {id : NodeId} (h : d.contains id) :
    (d.push node).get? id = d.get? id := by
  rw [get?_push, if_neg (ne_nextId_of_contains h)]

/-- Documents with the same links are forests together. -/
theorem Linked.of_same_links {d' : Document} (h : d.Linked) (hnull : d'.get? .null = none)
    (hroot : d'.contains .root) (hparent : ∀ id, d'.parent? id = d.parent? id)
    (hchildren : ∀ id, d'.childrenOf id = d.childrenOf id) : d'.Linked := by
  have habove : d'.Above = d.Above := by
    funext p c
    simp [Above, hparent]
  refine ⟨hnull, hroot, ?_, ?_, ?_, ?_⟩
  · rw [hparent, h.parent?_root]
  · intro p c
    rw [hparent, hchildren, h.mem_childrenOf_iff]
  · intro p
    rw [hchildren]
    exact h.nodup_childrenOf p
  · rw [habove]
    exact h.grounded

theorem Linked.push (h : d.Linked) (kind : NodeKind) : (d.push (.ofKind kind)).Linked := by
  have hnull : d.nextId ≠ .null := by
    intro heq
    have hsize : d.slots.size = 0 := congrArg NodeId.serial heq
    have := serial_lt_of_contains h.contains_root
    omega
  refine h.of_same_links ?_ ?_ (parent?_push d kind) (childrenOf_push d kind)
  · rw [get?_push, if_neg hnull.symm, h.get?_null]
  · rw [contains, get?_push_of_contains h.contains_root]
    exact h.contains_root

/-! ### What a node says -/

/-- A change that leaves the links of a node alone leaves the forest alone. -/
theorem Linked.modify (h : d.Linked) (id : NodeId) {f : Node → Node}
    (hparent : ∀ node, (f node).parent = node.parent)
    (hchildren : ∀ node, (f node).children = node.children) : (d.modify id f).Linked := by
  apply h.of_same_links
  · rw [get?_modify, h.get?_null]
    simp
  · have := h.contains_root
    rw [contains] at this ⊢
    rw [get?_modify]
    split <;> simpa using this
  · intro other
    rw [parent?, parent?, get?_modify]
    split
    · cases d.get? other <;> simp [hparent]
    · rfl
  · intro other
    rw [childrenOf, childrenOf, get?_modify]
    split
    · cases d.get? other <;> simp [hchildren]
    · rfl

/-! ### Away from the parent -/

/-- Where a node is no child, it cannot be missed among the children. -/
theorem Linked.filter_children (h : d.Linked) {id c : NodeId} {node : Node}
    (hn : d.get? id = some node) (hc : d.parent? c ≠ some id) :
    node.children.filter (· ≠ c) = node.children := by
  rw [List.filter_eq_self]
  intro x hx
  have hmem : x ∈ d.childrenOf id := by rwa [childrenOf_of_get? hn]
  have hxp := (h.mem_childrenOf_iff id x).mp hmem
  simp only [decide_eq_true_eq]
  rintro rfl
  exact hc hxp

/-- A node that is taken away has no parent, and no other node lists it. -/
theorem Linked.get?_detach (h : d.Linked) (c id : NodeId) :
    (d.detach c).get? id = (d.get? id).map fun node =>
      { node with
        parent := if id = c then none else node.parent
        children := node.children.filter (· ≠ c) } := by
  cases hn : d.get? id with
  | none =>
    unfold detach
    split
    · simp [hn]
    · rw [get?_modify, get?_modify, hn]
      simp
  | some node =>
    unfold detach
    split
    · rename_i hc
      have hfilter := h.filter_children hn (c := c) (by rw [parent?, hc]; simp)
      rw [hn, Option.map_some, hfilter]
      by_cases hid : id = c
      · subst hid
        have hpar : node.parent = none := by simpa [hn] using hc
        simp [← hpar]
      · simp [hid]
    · rename_i p hc
      have hne : p ≠ c := h.ne_of_above hc
      rw [get?_modify, get?_modify, hn]
      by_cases hp : id = p
      · subst hp
        simp [hne]
      · have hfilter := h.filter_children hn (c := c) (by
          rw [parent?, hc]
          simpa using fun heq => hp heq.symm)
        rw [if_neg hp]
        simp only [Option.map_some, hfilter]
        by_cases hid : id = c
        · simp only [if_pos hid]
        · simp only [if_neg hid]

theorem Linked.parent?_detach (h : d.Linked) (c id : NodeId) :
    (d.detach c).parent? id = if id = c then none else d.parent? id := by
  rw [parent?, parent?, h.get?_detach]
  cases d.get? id <;> simp

theorem Linked.childrenOf_detach (h : d.Linked) (c id : NodeId) :
    (d.detach c).childrenOf id = (d.childrenOf id).filter (· ≠ c) := by
  rw [childrenOf, childrenOf, h.get?_detach]
  cases d.get? id <;> simp

theorem Linked.contains_detach (h : d.Linked) (c id : NodeId) :
    (d.detach c).contains id = d.contains id := by
  rw [contains, contains, h.get?_detach]
  simp

theorem Linked.above_of_above_detach (h : d.Linked) {c p x : NodeId}
    (ha : (d.detach c).Above p x) : d.Above p x := by
  rw [Above, h.parent?_detach] at ha
  split at ha
  · simp at ha
  · exact ha

theorem Linked.detach (h : d.Linked) (c : NodeId) : (d.detach c).Linked := by
  refine ⟨?_, ?_, ?_, ?_, ?_, ?_⟩
  · rw [h.get?_detach, h.get?_null]
    rfl
  · rw [h.contains_detach]
    exact h.contains_root
  · rw [h.parent?_detach, h.parent?_root]
    simp
  · intro p x
    rw [h.childrenOf_detach, h.parent?_detach, List.mem_filter, h.mem_childrenOf_iff]
    by_cases hx : x = c <;> simp [hx]
  · intro p
    rw [h.childrenOf_detach]
    exact (h.nodup_childrenOf p).filter _
  · exact Subrelation.wf h.above_of_above_detach h.grounded

/-! ### Below another node -/

theorem get?_attach (d : Document) (p : NodeId) (index : Nat) (c id : NodeId) :
    (d.attach p index c).get? id = (d.get? id).map fun node =>
      { node with
        kind := if id = p then node.kind.withBlock else node.kind
        parent := if id = c then some p else node.parent
        children := if id = p then node.children.insertIdx index c else node.children } := by
  rw [attach, get?_modify, get?_modify]
  cases d.get? id with
  | none => simp
  | some node =>
    by_cases hc : id = c <;> by_cases hp : id = p
    · simp only [if_pos hc, if_pos hp, Option.map_some]
    · simp only [if_pos hc, if_neg hp, Option.map_some]
    · simp only [if_neg hc, if_pos hp, Option.map_some]
    · simp only [if_neg hc, if_neg hp, Option.map_some]

theorem parent?_attach (d : Document) (p : NodeId) (index : Nat) {c : NodeId}
    (hc : d.contains c) (id : NodeId) :
    (d.attach p index c).parent? id = if id = c then some p else d.parent? id := by
  obtain ⟨node, hn⟩ := exists_get?_of_contains hc
  rw [parent?, parent?, get?_attach]
  by_cases hid : id = c
  · subst hid
    simp [hn]
  · cases d.get? id <;> simp [hid]

theorem childrenOf_attach {p : NodeId} (hp : d.contains p) (index : Nat) (c id : NodeId) :
    (d.attach p index c).childrenOf id =
      if id = p then (d.childrenOf p).insertIdx index c else d.childrenOf id := by
  obtain ⟨node, hn⟩ := exists_get?_of_contains hp
  rw [childrenOf, get?_attach]
  by_cases hid : id = p
  · subst hid
    simp [hn, childrenOf]
  · rw [if_neg hid, childrenOf]
    cases d.get? id <;> simp [hid]

@[simp] theorem contains_attach (d : Document) (p : NodeId) (index : Nat) (c id : NodeId) :
    (d.attach p index c).contains id = d.contains id := by
  rw [contains, contains, get?_attach]
  simp

/-- The chains of parents still end when a node gets a parent that it is not over. -/
theorem Linked.grounded_attach (h : d.Linked) (p : NodeId) (index : Nat) {c : NodeId}
    (hc : d.contains c) (hover : ¬ d.Over c p) : WellFounded (d.attach p index c).Above := by
  have hpar := parent?_attach d p index hc
  -- what is not below `c` keeps its chain of parents, and `p` is such a node
  have hkept : ∀ x, ¬ d.Over c x → Acc (d.attach p index c).Above x := by
    intro x
    induction x using h.grounded.induction with
    | _ x ih =>
      intro hx
      refine ⟨x, fun q hq => ?_⟩
      rw [Above, hpar] at hq
      by_cases hxc : x = c
      · subst hxc
        exact absurd Relation.ReflTransGen.refl hx
      · rw [if_neg hxc] at hq
        exact ih q hq fun hcq => hx (hcq.tail hq)
  refine ⟨fun x => ?_⟩
  induction x using h.grounded.induction with
  | _ x ih =>
    refine ⟨x, fun q hq => ?_⟩
    rw [Above, hpar] at hq
    by_cases hxc : x = c
    · subst hxc
      rw [if_pos rfl, Option.some.injEq] at hq
      exact hq ▸ hkept p hover
    · rw [if_neg hxc] at hq
      exact ih q hq

/-- A node without a parent can be put below every node that it is not over. -/
theorem Linked.attach (h : d.Linked) {p c : NodeId} {index : Nat} (hp : d.contains p)
    (hc : d.contains c) (hroot : c ≠ .root) (hparent : d.parent? c = none)
    (hover : ¬ d.Over c p) (hindex : index ≤ (d.childrenOf p).length) :
    (d.attach p index c).Linked := by
  have hpar := parent?_attach d p index hc
  have hchild := childrenOf_attach hp index c
  have hfresh : ∀ q, c ∉ d.childrenOf q := by
    intro q hq
    rw [h.mem_childrenOf_iff, hparent] at hq
    simp at hq
  refine ⟨?_, ?_, ?_, ?_, ?_, ?_⟩
  · rw [get?_attach, h.get?_null]
    rfl
  · rw [contains_attach]
    exact h.contains_root
  · rw [hpar, if_neg hroot.symm, h.parent?_root]
  · intro q x
    rw [hpar, hchild]
    by_cases hq : q = p
    · subst hq
      rw [if_pos rfl, List.mem_insertIdx hindex, h.mem_childrenOf_iff]
      by_cases hx : x = c <;> simp [hx]
    · rw [if_neg hq, h.mem_childrenOf_iff]
      by_cases hx : x = c
      · simp [hx, hparent, Ne.symm hq]
      · simp [hx]
  · intro q
    rw [hchild]
    by_cases hq : q = p
    · subst hq
      rw [if_pos rfl, (List.perm_insertIdx c _ hindex).nodup_iff, List.nodup_cons]
      exact ⟨hfresh q, h.nodup_childrenOf q⟩
    · rw [if_neg hq]
      exact h.nodup_childrenOf q
  · exact h.grounded_attach p index hc hover

/-! ### Empty slots -/

theorem parent?_eraseAll (d : Document) (ids : List NodeId) (id : NodeId) :
    (d.eraseAll ids).parent? id = if id ∈ ids then none else d.parent? id := by
  rw [parent?, parent?, get?_eraseAll]
  split <;> rfl

theorem childrenOf_eraseAll (d : Document) (ids : List NodeId) (id : NodeId) :
    (d.eraseAll ids).childrenOf id = if id ∈ ids then [] else d.childrenOf id := by
  rw [childrenOf, childrenOf, get?_eraseAll]
  split <;> rfl

/-- Nodes can go when all their links lead to one another. -/
theorem Linked.eraseAll (h : d.Linked) {ids : List NodeId} (hroot : .root ∉ ids)
    (hdown : ∀ p ∈ ids, ∀ c ∈ d.childrenOf p, c ∈ ids)
    (hup : ∀ c ∈ ids, ∀ p, d.parent? c = some p → p ∈ ids) : (d.eraseAll ids).Linked := by
  refine ⟨?_, ?_, ?_, ?_, ?_, ?_⟩
  · rw [get?_eraseAll, h.get?_null]
    simp
  · rw [contains, get?_eraseAll, if_neg hroot]
    exact h.contains_root
  · rw [parent?_eraseAll, if_neg hroot, h.parent?_root]
  · intro p c
    rw [childrenOf_eraseAll, parent?_eraseAll]
    by_cases hp : p ∈ ids
    · have : c ∉ ids → d.parent? c ≠ some p := fun hc hcp =>
        hc (hdown p hp c ((h.mem_childrenOf_iff p c).mpr hcp))
      by_cases hc : c ∈ ids <;> simp [hp, hc, this]
    · have : c ∈ ids → d.parent? c ≠ some p := fun hc hcp => hp (hup c hc p hcp)
      by_cases hc : c ∈ ids <;> simp [hp, hc, h.mem_childrenOf_iff, this]
  · intro p
    rw [childrenOf_eraseAll]
    split
    · exact List.nodup_nil
    · exact h.nodup_childrenOf p
  · refine Subrelation.wf ?_ h.grounded
    intro p c hpc
    rw [Above, parent?_eraseAll] at hpc
    split at hpc
    · simp at hpc
    · exact hpc

end Typography.Document
