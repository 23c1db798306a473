import Typography.Proofs.Document.Branch

/-!
# The nodes below a node, children before parents

What is gathered for a removal are the nodes that a walk meets, in another order: each node comes
behind those below it, `Linked.descendants_perm_walk`.
-/

namespace Typography

namespace Branch

mutual

/-- The identifiers of a branch in post-order. -/
def postorder : Branch → List NodeId
  | node id _ _ children => postorderOfAll children ++ [id]

/-- The identifiers of the branches of a list in post-order, one branch after the other. -/
def postorderOfAll : List Branch → List NodeId
  | [] => []
  | b :: bs => b.postorder ++ postorderOfAll bs

end

mutual

theorem postorder_perm : ∀ b : Branch, b.postorder.Perm b.ids
  | node _ _ _ children => by
    rw [postorder, ids]
    exact List.perm_append_comm.trans ((postorderOfAll_perm children).cons _)

/-- Post-order and pre-order have the same nodes. -/
theorem postorderOfAll_perm : ∀ bs : List Branch, (postorderOfAll bs).Perm (idsOfAll bs)
  | [] => .nil
  | b :: bs => by
    rw [postorderOfAll, idsOfAll]
    exact b.postorder_perm.append (postorderOfAll_perm bs)

end

theorem postorderOfAll_eq_flatten (bs : List Branch) :
    postorderOfAll bs = (bs.map postorder).flatten := by
  induction bs with
  | nil => rfl
  | cons b bs ih => rw [postorderOfAll, List.map_cons, List.flatten_cons, ih]

theorem postorder_sublist {b : Branch} {bs : List Branch} (h : b ∈ bs) :
    b.postorder.Sublist (postorderOfAll bs) := by
  rw [postorderOfAll_eq_flatten]
  exact List.sublist_flatten_of_mem (List.mem_map_of_mem h)

/-- In post-order a node comes behind those below it. -/
theorem Stands.below_first {d : Document} (h : d.Linked) {b : Branch} :
    ∀ {parent : Option NodeId}, b.Stands d parent → ∀ x ∈ b.ids, ∀ y,
      Relation.TransGen d.Above x y → [y, x].Sublist b.postorder := by
  induction b using Branch.induction with
  | step id kind span children ih =>
    intro parent hb x hx y hxy
    rw [ids, List.mem_cons] at hx
    rw [postorder]
    rcases hx with rfl | hx
    · have hy := h.mem_ids_of_over hb hxy.to_reflTransGen
      rw [ids, List.mem_cons] at hy
      rcases hy with rfl | hy
      · exact absurd hxy (h.grounded.transGen.irrefl.irrefl _)
      · have hy' := (postorderOfAll_perm children).mem_iff.mpr hy
        exact (List.singleton_sublist.mpr hy').append (List.Sublist.refl [_])
    · obtain ⟨c, hc, hcs, hxc⟩ := hb.2.exists_of_mem hx
      exact ((ih c hc hcs x hxc y hxy).trans (postorder_sublist hc)).trans
        (List.sublist_append_left _ _)

end Branch

namespace Document

variable {d : Document}

theorem Linked.descendants_eq (h : d.Linked) {id : NodeId} {kind : NodeKind} {span : Option Span}
    {children : List Branch} {parent : Option NodeId}
    (hb : (Branch.node id kind span children).Stands d parent) :
    d.descendants id = .ok (Branch.postorderOfAll children) := by
  rw [Branch.postorderOfAll_eq_flatten]
  exact h.gatherWithin_children hb fun id kind span children => by
    rw [Branch.postorder, Branch.postorderOfAll_eq_flatten]

/-- The nodes that go with a node are those that a walk from it meets, each behind those below
it. -/
theorem Linked.descendants_perm_walk (h : d.Linked) {id : NodeId} (hid : d.contains id) :
    ∃ below ids, d.descendants id = .ok below ∧ d.walk id = .ok ids ∧ below.Perm ids ∧
      ∀ x ∈ below, ∀ y, Relation.TransGen d.Above x y → [y, x].Sublist below := by
  obtain ⟨node, hn⟩ := exists_get?_of_contains hid
  obtain ⟨⟨other, kind, span, children⟩, hother, hb⟩ := h.exists_branch hn
  obtain rfl : other = id := hother
  have hperm := Branch.postorderOfAll_perm children
  refine ⟨_, _, h.descendants_eq hb, h.walk_eq hb, hperm, fun x hx y hxy => ?_⟩
  obtain ⟨c, hc, hcs, hxc⟩ := hb.2.exists_of_mem (hperm.mem_iff.mp hx)
  exact (hcs.below_first h x hxc y hxy).trans (Branch.postorder_sublist hc)

end Document

end Typography
