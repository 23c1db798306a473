import Mathlib.Data.List.InsertIdx
import Mathlib.Data.List.Nodup
import Mathlib.Logic.Relation
import Mathlib.Order.WellFounded
import Typography.Document.Edit

/-!
# Documents as forests

The links between the nodes of a document are kept both ways, as the parent of a
node and as the children of a node. `Document.Linked` says that both describe one
forest: a node is a child of `p` exactly when its parent is `p`, no node is twice
among the children of another, and no chain of parents goes round. The view
through `parent?` and `childrenOf` is total, so that stale identifiers need no
case of their own.

Each operation on slots has its lemma about this view, and the operations that
editing is made of keep the forest.
-/

namespace Typography.Document

/-- The parent of a node. A stale identifier has none. -/
def parent? (d : Document) (id : NodeId) : Option NodeId :=
  (d.get? id).bind Node.parent

/-- The children of a node. A stale identifier has none. -/
def childrenOf (d : Document) (id : NodeId) : List NodeId :=
  ((d.get? id).map Node.children).getD []

/-- `p` is the parent of `c`. -/
def Above (d : Document) (p c : NodeId) : Prop :=
  d.parent? c = some p

/-- `a` is the node `x` or one of those above it. -/
def Over (d : Document) (a x : NodeId) : Prop :=
  Relation.ReflTransGen d.Above a x

/-- Parents and children describe one forest, in which the root has no parent. -/
structure Linked (d : Document) : Prop where
  get?_null : d.get? .null = none
  contains_root : d.contains .root
  parent?_root : d.parent? .root = none
  mem_childrenOf_iff : ∀ p c, c ∈ d.childrenOf p ↔ d.parent? c = some p
  nodup_childrenOf : ∀ p, (d.childrenOf p).Nodup
  grounded : WellFounded d.Above

variable {d : Document}

theorem parent?_of_get? {id : NodeId} {node : Node} (h : d.get? id = some node) :
    d.parent? id = node.parent := by
  simp [parent?, h]

theorem childrenOf_of_get? {id : NodeId} {node : Node} (h : d.get? id = some node) :
    d.childrenOf id = node.children := by
  simp [childrenOf, h]

theorem contains_of_get? {id : NodeId} {node : Node} (h : d.get? id = some node) :
    d.contains id := by
  simp [contains, h]

theorem exists_get?_of_contains {id : NodeId} (h : d.contains id) :
    ∃ node, d.get? id = some node :=
  Option.isSome_iff_exists.mp h

theorem contains_of_parent? {p c : NodeId} (h : d.parent? c = some p) : d.contains c := by
  obtain ⟨node, hn, -⟩ := Option.bind_eq_some_iff.mp h
  exact contains_of_get? hn

theorem contains_of_mem_childrenOf {p c : NodeId} (h : c ∈ d.childrenOf p) :
    d.contains p := by
  unfold childrenOf at h
  cases hp : d.get? p with
  | none => simp [hp] at h
  | some node => exact contains_of_get? hp

/-- Over a node that is not the topmost one there is its parent. -/
theorem exists_above_of_over {a x : NodeId} (ho : d.Over a x) (hne : x ≠ a) :
    ∃ p, d.Over a p ∧ d.Above p x :=
  (Relation.ReflTransGen.cases_tail ho).resolve_left hne

/-- The identifiers in use are below the next one. -/
theorem serial_lt_of_contains {id : NodeId} (h : d.contains id) :
    id.serial < d.slots.size := by
  obtain ⟨node, hn⟩ := exists_get?_of_contains h
  by_contra hge
  rw [get?, Array.getElem?_eq_none (by omega)] at hn
  simp at hn

theorem get?_nextId (d : Document) : d.get? d.nextId = none := by
  rw [get?, nextId, Array.getElem?_eq_none (Nat.le_refl _)]
  rfl

theorem ne_nextId_of_contains {id : NodeId} (h : d.contains id) : id ≠ d.nextId := by
  rintro rfl
  exact Nat.lt_irrefl _ (serial_lt_of_contains h)

namespace Linked

variable (h : d.Linked)
include h

theorem contains_parent {p c : NodeId} (hp : d.parent? c = some p) : d.contains p :=
  contains_of_mem_childrenOf ((h.mem_childrenOf_iff p c).mpr hp)

theorem contains_child {p c : NodeId} (hc : c ∈ d.childrenOf p) : d.contains c :=
  contains_of_parent? ((h.mem_childrenOf_iff p c).mp hc)

/-- A node stands at a place among the children of its parent. -/
theorem exists_place {p c : NodeId} (hp : d.parent? c = some p) :
    ∃ node before after, d.get? p = some node ∧ node.children = before ++ c :: after := by
  obtain ⟨node, hn⟩ := exists_get?_of_contains (h.contains_parent hp)
  have hc := (h.mem_childrenOf_iff p c).mpr hp
  rw [childrenOf_of_get? hn] at hc
  obtain ⟨before, after, hchildren⟩ := List.append_of_mem hc
  exact ⟨node, before, after, hn, hchildren⟩

/-- A node stands at the end of no chain of parents that leads back to it. -/
theorem not_over_of_above {p c : NodeId} (hp : d.Above p c) : ¬ d.Over c p := by
  intro hover
  have hcycle : Relation.TransGen d.Above c c := Relation.TransGen.tail' hover hp
  exact h.grounded.transGen.irrefl.irrefl c hcycle

theorem ne_of_above {p c : NodeId} (hp : d.Above p c) : p ≠ c := by
  rintro rfl
  exact h.not_over_of_above hp Relation.ReflTransGen.refl

theorem ne_root_of_parent? {p x : NodeId} (hp : d.parent? x = some p) : x ≠ .root := by
  rintro rfl
  rw [h.parent?_root] at hp
  cases hp

theorem eq_root_of_over {x : NodeId} (ho : d.Over x .root) : x = .root := by
  rcases Relation.ReflTransGen.cases_tail ho with heq | ⟨p, -, hp⟩
  · exact heq.symm
  · exact absurd rfl (h.ne_root_of_parent? hp)

theorem contains_of_over {a x : NodeId} (ho : d.Over a x) (hx : d.contains x) :
    d.contains a := by
  rcases Relation.ReflTransGen.cases_head ho with rfl | ⟨c, hac, -⟩
  · exact hx
  · exact h.contains_parent hac

omit h in
/-- What is over one node is in line. -/
theorem over_total {a b x : NodeId} (ha : d.Over a x) (hb : d.Over b x) :
    d.Over a b ∨ d.Over b a := by
  have hunique : Relator.RightUnique (Function.swap d.Above) := by
    intro c p q hp hq
    exact Option.some.inj (hp.symm.trans hq)
  have ha' := Relation.reflTransGen_swap.mpr ha
  have hb' := Relation.reflTransGen_swap.mpr hb
  rcases Relation.ReflTransGen.total_of_right_unique hunique ha' hb' with hab | hba
  · exact .inr (Relation.reflTransGen_swap.mp hab)
  · exact .inl (Relation.reflTransGen_swap.mp hba)

/-- Above a node there is at most one child of another node. -/
theorem eq_of_over_of_above {p a b x : NodeId} (hpa : d.Above p a) (hpb : d.Above p b)
    (ha : d.Over a x) (hb : d.Over b x) : a = b := by
  have key : ∀ {a b : NodeId}, d.Above p a → d.Above p b → d.Over a b → a = b := by
    intro a b hpa hpb hab
    rcases Relation.ReflTransGen.cases_tail hab with rfl | ⟨q, haq, hqb⟩
    · rfl
    · have hq : q = p := Option.some.inj (hqb.symm.trans hpb)
      exact absurd (hq ▸ haq) (h.not_over_of_above hpa)
  rcases over_total ha hb with hab | hba
  · exact key hpa hpb hab
  · exact (key hpb hpa hba).symm

end Linked

theorem get?_empty (file : Option String) (id : NodeId) :
    (empty file).get? id = if id = .root then some (.ofKind .root) else none := by
  obtain ⟨n⟩ := id
  match n with
  | 0 => rfl
  | 1 => rfl
  | n + 2 => rfl

theorem eq_root_of_contains_empty {file : Option String} {id : NodeId}
    (h : (empty file).contains id) : id = .root := by
  by_contra hid
  rw [contains, get?_empty, if_neg hid] at h
  cases h

/-- A document with nothing below its root is a forest. -/
theorem linked_empty (file : Option String) : (empty file).Linked := by
  have hget := get?_empty file
  have hparent : ∀ id, (empty file).parent? id = none := by
    intro id
    rw [parent?, hget]
    split <;> rfl
  have hchildren : ∀ id, (empty file).childrenOf id = [] := by
    intro id
    rw [childrenOf, hget]
    split <;> rfl
  refine ⟨by simp [hget, NodeId.null, NodeId.root], rfl, hparent _, ?_, ?_, ⟨fun c => ⟨c, ?_⟩⟩⟩
  · simp [hparent, hchildren]
  · simp [hchildren]
  · intro p hp
    simp [Above, hparent] at hp

end Typography.Document
