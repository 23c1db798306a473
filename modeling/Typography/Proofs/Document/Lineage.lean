import Mathlib.Data.List.Perm.Subperm
import Mathlib.Data.List.Range
import Typography.Proofs.Document.Linked

/-!
# The nodes above a node

The test whether a node is below another one follows the parents upwards, as many
levels as there are slots. In a forest that is far enough: a chain of parents
meets no node twice, and every node has a slot, so the chain ends before the
levels do.
-/

namespace Typography.Document

variable {d : Document}

/-- Nodes that differ from each other are fewer than the slots, of which the first
is empty. -/
theorem Linked.length_lt_size (h : d.Linked) {ids : List NodeId} (hnodup : ids.Nodup)
    (hlive : ∀ id ∈ ids, d.contains id) : ids.length < d.slots.size := by
  have hsub : ids.map NodeId.serial ⊆ List.range' 1 (d.slots.size - 1) := by
    intro n hn
    obtain ⟨id, hid, rfl⟩ := List.mem_map.mp hn
    have hlt := serial_lt_of_contains (hlive id hid)
    have hne : id.serial ≠ 0 := by
      intro hzero
      have hnull : id = .null := by
        cases id
        exact congrArg NodeId.mk hzero
      have := hlive id hid
      rw [hnull, contains, h.get?_null] at this
      simp at this
    rw [List.mem_range'_1]
    omega
  have hinj : (ids.map NodeId.serial).Nodup := by
    apply hnodup.map
    rintro ⟨a⟩ ⟨b⟩ rfl
    rfl
  have hlen := (List.subperm_of_subset hinj hsub).length_le
  have hroot := serial_lt_of_contains h.contains_root
  rw [List.length_map, List.length_range'] at hlen
  omega

theorem over_of_mem_lineageWithin {levels : Nat} {a x : NodeId}
    (ha : a ∈ d.lineageWithin levels x) : d.Over a x := by
  induction levels generalizing x with
  | zero => simp [lineageWithin] at ha
  | succ levels ih =>
    rw [lineageWithin, List.mem_cons] at ha
    rcases ha with rfl | ha
    · exact Relation.ReflTransGen.refl
    · split at ha
      · rename_i p hp
        exact (ih ha).tail hp
      · simp at ha

theorem Linked.nodup_lineageWithin (h : d.Linked) (levels : Nat) (x : NodeId) :
    (d.lineageWithin levels x).Nodup := by
  induction levels generalizing x with
  | zero => exact List.nodup_nil
  | succ levels ih =>
    rw [lineageWithin, List.nodup_cons]
    split
    · rename_i p hp
      exact ⟨fun hx => h.not_over_of_above hp (over_of_mem_lineageWithin hx), ih p⟩
    · exact ⟨List.not_mem_nil, List.nodup_nil⟩

/-- A chain that is shorter than the levels has come to its end. -/
theorem mem_lineageWithin_of_over {levels : Nat} {a x : NodeId} (ho : d.Over a x)
    (hlen : (d.lineageWithin levels x).length < levels) :
    a ∈ d.lineageWithin levels x := by
  induction levels generalizing x with
  | zero => simp at hlen
  | succ levels ih =>
    rw [lineageWithin] at hlen ⊢
    rcases Relation.ReflTransGen.cases_tail ho with rfl | ⟨p, hap, hpx⟩
    · exact List.mem_cons_self
    · have hp : (d.get? x).bind Node.parent = some p := hpx
      simp only [hp, List.length_cons] at hlen ⊢
      exact List.mem_cons_of_mem _ (ih hap (by omega))

/-- The nodes that the test meets are those over the node. -/
theorem Linked.mem_lineage_iff (h : d.Linked) {a x : NodeId} (hx : d.contains x) :
    a ∈ d.lineage x ↔ d.Over a x := by
  constructor
  · exact over_of_mem_lineageWithin
  · intro ho
    apply mem_lineageWithin_of_over ho
    refine h.length_lt_size (h.nodup_lineageWithin _ x) fun id hid => ?_
    exact h.contains_of_over (over_of_mem_lineageWithin hid) hx

end Typography.Document
