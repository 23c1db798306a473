import Typography.Proofs.Document.Descendants
import Typography.Proofs.Document.Steps

/-!
# What edits come to

`Edit.on` runs an edit on a document. In a forest each edit on the tree either
changes nothing and is refused, or is done as a whole: no step is refused once the
first change was made. So an edit is described by the condition on which it is done
and by the document that it leaves.
-/

namespace Typography

namespace Edit

/-- What an edit answers, and the document behind it. -/
def on {α : Type} (e : Edit α) (d : Document) : Except TreeError α × Document :=
  e.run.run d

variable {α β : Type} (d : Document)

@[simp] theorem on_pure (a : α) : (pure a : Edit α).on d = (.ok a, d) := rfl

@[simp] theorem on_throw (cause : TreeError) : (throw cause : Edit α).on d = (.error cause, d) :=
  rfl

theorem on_bind (e : Edit α) (f : α → Edit β) :
    (e >>= f).on d =
      match e.on d with
      | (.ok a, d') => (f a).on d'
      | (.error cause, d') => (.error cause, d') := by
  change (ExceptT.bind e f).run.run d = _
  unfold on ExceptT.bind ExceptT.mk
  simp only [ExceptT.run, StateT.run_bind, ExceptT.bindCont]
  generalize StateT.run e d = r
  obtain ⟨result, d'⟩ := r
  cases result <;> rfl

theorem on_bind_of_ok {e : Edit α} {f : α → Edit β} {d d' : Document} {a : α}
    (h : e.on d = (.ok a, d')) : (e >>= f).on d = (f a).on d' := by
  rw [on_bind, h]

/-- An edit in two steps that is done has done both. -/
theorem on_bind_eq_ok {e : Edit α} {f : α → Edit β} {d d' : Document} {b : β}
    (h : (e >>= f).on d = (.ok b, d')) :
    ∃ a between, e.on d = (.ok a, between) ∧ (f a).on between = (.ok b, d') := by
  rw [on_bind] at h
  generalize e.on d = r at h ⊢
  obtain ⟨result, between⟩ := r
  cases result with
  | error cause => cases h
  | ok a => exact ⟨a, between, rfl, h⟩

@[simp] theorem on_ask (f : Document → Except TreeError α) : (ask f).on d = (f d, d) := rfl

@[simp] theorem on_change (f : Document → Document) : (change f).on d = (.ok (), f d) := rfl

@[simp] theorem on_create (kind : NodeKind) :
    (create kind).on d = (.ok d.nextId, d.push (.ofKind kind)) := rfl

end Edit

@[simp] theorem except_ok_bind {ε α β : Type} (a : α) (f : α → Except ε β) :
    (Except.ok a >>= f) = f a := rfl

@[simp] theorem except_error_bind {ε α β : Type} (e : ε) (f : α → Except ε β) :
    (Except.error e >>= f) = .error e := rfl

@[simp] theorem except_throw {ε α : Type} (e : ε) :
    (throw e : Except ε α) = .error e := rfl

@[simp] theorem except_pure {ε α : Type} (a : α) :
    (pure a : Except ε α) = .ok a := rfl

theorem idxOf?_of_mem {α : Type} [DecidableEq α] {a : α} {l : List α} (h : a ∈ l) :
    l.idxOf? a = some (l.idxOf a) := by
  induction l with
  | nil => simp at h
  | cons b l ih =>
    rw [List.idxOf?_cons, List.idxOf_cons]
    by_cases hb : b = a
    · simp [hb]
    · have hmem : a ∈ l := (List.mem_cons.mp h).resolve_left (Ne.symm hb)
      simp [ih hmem, beq_eq_false_iff_ne.mpr hb]

namespace Document

variable {d : Document}

theorem find_of_get? {id : NodeId} {node : Node} (h : d.get? id = some node) :
    d.find id = .ok node := by
  rw [find, h]

theorem get?_of_find {id : NodeId} {node : Node} (h : d.find id = .ok node) :
    d.get? id = some node := by
  rw [find] at h
  cases hn : d.get? id with
  | none =>
    rw [hn] at h
    cases h
  | some other =>
    rw [hn] at h
    rw [Except.ok.inj h]

theorem find_of_not_contains {id : NodeId} (h : d.contains id = false) :
    d.find id = .error .unknownNode := by
  rw [contains, Option.isSome_eq_false_iff, Option.isNone_iff_eq_none] at h
  rw [find, h]

/-- What may be put below which node: the condition that insertion checks. -/
structure Insertable (d : Document) (p c : NodeId) : Prop where
  isContainer : ∃ node, d.get? p = some node ∧ node.kind.isContainer
  ne_root : c ≠ .root
  contains : d.contains c
  not_over : ¬ d.Over c p

theorem Insertable.contains_parent {p c : NodeId} (hi : d.Insertable p c) : d.contains p := by
  obtain ⟨node, hn, -⟩ := hi.isContainer
  exact contains_of_get? hn

/-- The parent is still there when the child has left its place. -/
theorem Insertable.contains_parent_detach (h : d.Linked) {p c : NodeId}
    (hi : d.Insertable p c) : (d.detach c).contains p := by
  rw [h.contains_detach]
  exact hi.contains_parent

theorem Linked.checkInsertable_eq_ok (h : d.Linked) {p c : NodeId} (hi : d.Insertable p c) :
    d.checkInsertable p c = .ok () := by
  obtain ⟨node, hn, hcontainer⟩ := hi.isContainer
  obtain ⟨child, hc⟩ := exists_get?_of_contains hi.contains
  have hlineage : c ∉ d.lineage p := fun hmem =>
    hi.not_over ((h.mem_lineage_iff hi.contains_parent).mp hmem)
  simp [checkInsertable, find_of_get? hn, find_of_get? hc, hcontainer, hi.ne_root, hlineage]

theorem checkInsertable_of_not_isContainer {p : NodeId} {node : Node} (hn : d.get? p = some node)
    (hkind : node.kind.isContainer = false) (c : NodeId) :
    d.checkInsertable p c = .error .notAContainer := by
  simp [checkInsertable, find_of_get? hn, hkind]

theorem Linked.insertable_of_checkInsertable (h : d.Linked) {p c : NodeId}
    (hok : d.checkInsertable p c = .ok ()) : d.Insertable p c := by
  unfold checkInsertable at hok
  cases hp : d.get? p with
  | none => simp [find, hp] at hok
  | some node =>
    have hpc : d.contains p := contains_of_get? hp
    cases hcontainer : node.kind.isContainer with
    | false => simp [find, hp, hcontainer] at hok
    | true =>
      by_cases hroot : c = .root
      · simp [find, hp, hcontainer, hroot] at hok
      · cases hc : d.get? c with
        | none => simp [find, hp, hcontainer, hroot, hc] at hok
        | some child =>
          by_cases hlineage : c ∈ d.lineage p
          · simp [find, hp, hroot, hc, hlineage, hcontainer] at hok
          · exact ⟨⟨node, hp, hcontainer⟩, hroot, contains_of_get? hc,
              fun ho => hlineage ((h.mem_lineage_iff hpc).mpr ho)⟩

/-- A node put at a place below another one, away from where it was. -/
def move (d : Document) (p : NodeId) (index : Nat) (c : NodeId) : Document :=
  (d.detach c).attach p index c

@[simp] theorem size_slots_move (d : Document) (p : NodeId) (index : Nat) (c : NodeId) :
    (d.move p index c).slots.size = d.slots.size := by
  simp [move]

@[simp] theorem file_move (d : Document) (p : NodeId) (index : Nat) (c : NodeId) :
    (d.move p index c).file = d.file := by
  simp [move]

/-- The document keeps its other nodes when a node moves; what changes are the
parent of the node, the list it leaves and the list it enters. -/
theorem Linked.get?_move (h : d.Linked) (p : NodeId) (index : Nat) (c id : NodeId) :
    (d.move p index c).get? id = (d.get? id).map fun node =>
      { node with
        kind := if id = p then node.kind.withBlock else node.kind
        parent := if id = c then some p else node.parent
        children :=
          if id = p then (node.children.filter (· ≠ c)).insertIdx index c
          else node.children.filter (· ≠ c) } := by
  rw [move, get?_attach, h.get?_detach, Option.map_map]
  cases d.get? id with
  | none => rfl
  | some node => by_cases hid : id = c <;> simp [hid]

theorem Linked.contains_move (h : d.Linked) (p : NodeId) (index : Nat) (c id : NodeId) :
    (d.move p index c).contains id = d.contains id := by
  rw [contains, contains, h.get?_move, Option.isSome_map]

/-- The parents of the other nodes stay when a node moves. -/
theorem Linked.parent?_move_of_ne (h : d.Linked) (p : NodeId) (index : Nat) {c id : NodeId}
    (hne : id ≠ c) : (d.move p index c).parent? id = d.parent? id := by
  rw [parent?, parent?, h.get?_move]
  cases d.get? id <;> simp [hne]

theorem Linked.move (h : d.Linked) {p c : NodeId} {index : Nat} (hi : d.Insertable p c)
    (hindex : index ≤ ((d.detach c).childrenOf p).length) : (d.move p index c).Linked := by
  refine (h.detach c).attach (hi.contains_parent_detach h) ?_ hi.ne_root ?_ ?_ hindex
  · rw [h.contains_detach]
    exact hi.contains
  · rw [h.parent?_detach, if_pos rfl]
  · intro ho
    exact hi.not_over (Relation.ReflTransGen.mono (fun _ _ => h.above_of_above_detach) _ _ ho)

/-- At a live node stands a branch. -/
theorem Linked.exists_stands (h : d.Linked) {id : NodeId} (hid : d.contains id) :
    ∃ kind span children parent, (Branch.node id kind span children).Stands d parent := by
  obtain ⟨node, hn⟩ := exists_get?_of_contains hid
  obtain ⟨⟨other, kind, span, children⟩, hb, hs⟩ := h.exists_branch hn
  obtain rfl : other = id := hb
  exact ⟨kind, span, children, _, hs⟩

/-- The document without a node and what is below it. -/
def prune (d : Document) (id : NodeId) (below : List NodeId) : Document :=
  (d.detach id).eraseAll (below ++ [id])

theorem erase_comm (d : Document) (id other : NodeId) :
    (d.erase id).erase other = (d.erase other).erase id := by
  refine congrArg (Document.mk · d.file) (Array.ext_getElem? fun i => ?_)
  simp only [Array.getElem?_modify, erase]
  cases d.slots[i]? <;> split <;> split <;> rfl

/-- Slots may be emptied in any order. -/
theorem eraseAll_perm (d : Document) {ids ids' : List NodeId} (h : ids.Perm ids') :
    d.eraseAll ids = d.eraseAll ids' :=
  h.foldl_eq' (fun id _ other _ d => d.erase_comm id other) d

theorem eraseAll_append (d : Document) (ids more : List NodeId) :
    d.eraseAll (ids ++ more) = (d.eraseAll ids).eraseAll more := by
  rw [eraseAll, eraseAll, eraseAll, List.foldl_append]

@[simp] theorem size_slots_prune (d : Document) (id : NodeId) (below : List NodeId) :
    (d.prune id below).slots.size = d.slots.size := by
  simp [prune]

@[simp] theorem file_prune (d : Document) (id : NodeId) (below : List NodeId) :
    (d.prune id below).file = d.file := by
  simp [prune]

/-- The nodes of a branch go together, and the list above them loses its topmost. -/
theorem Linked.get?_prune (h : d.Linked) (id : NodeId) (kind : NodeKind) (span : Option Span)
    (children : List Branch) (other : NodeId) :
    (d.prune id (Branch.idsOfAll children)).get? other =
      if other ∈ (Branch.node id kind span children).ids then none
      else (d.get? other).map fun node =>
        { node with children := node.children.filter (· ≠ id) } := by
  rw [prune, get?_eraseAll, h.get?_detach, Branch.ids]
  by_cases hmem : other ∈ id :: Branch.idsOfAll children
  · have hmem' : other ∈ Branch.idsOfAll children ++ [id] := by
      simpa [or_comm] using hmem
    rw [if_pos hmem, if_pos hmem']
  · have hmem' : other ∉ Branch.idsOfAll children ++ [id] := by
      simpa [or_comm] using hmem
    have hne : other ≠ id := fun heq => hmem (heq ▸ List.mem_cons_self)
    rw [if_neg hmem, if_neg hmem']
    simp [hne]

theorem Linked.prune (h : d.Linked) {id : NodeId} {kind : NodeKind} {span : Option Span}
    {children : List Branch} {parent : Option NodeId}
    (hb : (Branch.node id kind span children).Stands d parent) (hroot : id ≠ .root) :
    (d.prune id (Branch.idsOfAll children)).Linked := by
  have hmem : ∀ x, x ∈ Branch.idsOfAll children ++ [id] ↔
      x ∈ (Branch.node id kind span children).ids := by
    intro x
    simp [Branch.ids, or_comm]
  apply (h.detach id).eraseAll
  · rw [hmem]
    exact fun hmem => hroot (h.eq_root_of_over (hb.over_of_mem _ hmem))
  · intro p hp c hc
    rw [hmem] at hp ⊢
    rw [h.childrenOf_detach, List.mem_filter] at hc
    exact hb.mem_of_mem_childrenOf p hp c hc.1
  · intro c hc p hcp
    rw [hmem] at hc ⊢
    rw [h.parent?_detach] at hcp
    by_cases hid : c = id
    · simp [hid] at hcp
    · rw [if_neg hid] at hcp
      rcases Relation.ReflTransGen.cases_tail (hb.over_of_mem c hc) with heq | ⟨q, hq, hqc⟩
      · exact absurd heq hid
      · have hpq : q = p := Option.some.inj (hqc.symm.trans hcp)
        exact hpq ▸ h.mem_ids_of_over hb hq

end Document

namespace Edit

variable {d : Document}

open Document

/-- Appending is refused, or moves the node behind the children of its parent. -/
theorem append_on (h : d.Linked) (p c : NodeId) :
    (append p c).on d =
      match d.checkInsertable p c with
      | .error cause => (.error cause, d)
      | .ok () => (.ok (), d.move p ((d.detach c).childrenOf p).length c) := by
  unfold append
  rw [on_bind, on_ask]
  cases hcheck : d.checkInsertable p c with
  | error cause => rfl
  | ok _ =>
    have hi := h.insertable_of_checkInsertable hcheck
    obtain ⟨node, hn⟩ := exists_get?_of_contains (hi.contains_parent_detach h)
    simp [on_bind, find_of_get? hn, childrenOf_of_get? hn, Document.move]

theorem indexOf_eq (d : Document) {p : NodeId} (hp : d.contains p) (a : NodeId) :
    d.indexOf p a =
      if a ∈ d.childrenOf p then .ok ((d.childrenOf p).idxOf a) else .error .notAChild := by
  obtain ⟨node, hn⟩ := exists_get?_of_contains hp
  rw [indexOf, find_of_get? hn, childrenOf_of_get? hn, except_ok_bind]
  by_cases ha : a ∈ node.children
  · rw [if_pos ha, idxOf?_of_mem ha]
    rfl
  · rw [if_neg ha, List.idxOf?_eq_none_iff.mpr ha]
    rfl

/-- Insertion before a node is refused, or moves the node to the place before it. -/
theorem insertBefore_on (h : d.Linked) (p a c : NodeId) :
    (insertBefore p a c).on d =
      match d.checkInsertable p c with
      | .error cause => (.error cause, d)
      | .ok () =>
        if a ∈ d.childrenOf p then
          if c = a then (.ok (), d)
          else (.ok (), d.move p (((d.detach c).childrenOf p).idxOf a) c)
        else (.error .notAChild, d) := by
  unfold insertBefore
  rw [on_bind, on_ask]
  cases hcheck : d.checkInsertable p c with
  | error cause => rfl
  | ok _ =>
    have hi := h.insertable_of_checkInsertable hcheck
    simp only [on_bind, on_ask, indexOf_eq d hi.contains_parent]
    by_cases ha : a ∈ d.childrenOf p
    · rw [if_pos ha, if_pos ha]
      by_cases hca : c = a
      · simp [hca]
      · have ha' : a ∈ (d.detach c).childrenOf p := by
          rw [h.childrenOf_detach, List.mem_filter]
          exact ⟨ha, by simpa using fun heq => hca heq.symm⟩
        simp [hca, on_bind, indexOf_eq _ (hi.contains_parent_detach h), ha', Document.move]
    · rw [if_neg ha, if_neg ha]

/-- Removal is refused for the root and for a stale identifier only. -/
theorem remove_on (h : d.Linked) {id : NodeId} (hroot : id ≠ .root) {kind : NodeKind}
    {span : Option Span} {children : List Branch} {parent : Option NodeId}
    (hb : (Branch.node id kind span children).Stands d parent) :
    (remove id).on d = (.ok (), d.prune id (Branch.idsOfAll children)) := by
  unfold remove
  simp [hroot, on_bind, h.descendants_eq hb, Document.prune, eraseAll_append,
    eraseAll_perm _ (Branch.postorderOfAll_perm children)]

theorem remove_on_root (d : Document) : (remove .root).on d = (.error .rootNode, d) := by
  rfl

theorem remove_on_stale {id : NodeId} (hroot : id ≠ .root) (hid : d.contains id = false) :
    (remove id).on d = (.error .unknownNode, d) := by
  unfold remove
  simp [hroot, on_bind, descendants, find_of_not_contains hid]

/-! ### What was done -/

variable {d' : Document}

theorem eq_move_of_append (h : d.Linked) {p c : NodeId} (hdone : (append p c).on d = (.ok (), d')) :
    ∃ index, d.Insertable p c ∧ index ≤ ((d.detach c).childrenOf p).length ∧
      d' = d.move p index c := by
  rw [append_on h] at hdone
  cases hcheck : d.checkInsertable p c with
  | error _ =>
    rw [hcheck] at hdone
    cases hdone
  | ok _ =>
    simp only [hcheck, Prod.mk.injEq, true_and] at hdone
    exact ⟨_, h.insertable_of_checkInsertable hcheck, Nat.le_refl _, hdone.symm⟩

/-- A node that is put before itself stays where it is. -/
theorem eq_move_of_insertBefore (h : d.Linked) {p a c : NodeId}
    (hdone : (insertBefore p a c).on d = (.ok (), d')) :
    d' = d ∨ ∃ index, d.Insertable p c ∧ index ≤ ((d.detach c).childrenOf p).length ∧
      d' = d.move p index c := by
  rw [insertBefore_on h] at hdone
  cases hcheck : d.checkInsertable p c with
  | error _ =>
    rw [hcheck] at hdone
    cases hdone
  | ok _ =>
    simp only [hcheck] at hdone
    split at hdone
    · split at hdone
      · cases hdone
        exact .inl rfl
      · cases hdone
        exact .inr ⟨_, h.insertable_of_checkInsertable hcheck, List.idxOf_le_length, rfl⟩
    · cases hdone

theorem eq_prune_of_remove (h : d.Linked) {id : NodeId}
    (hdone : (remove id).on d = (.ok (), d')) :
    ∃ kind span children parent, id ≠ .root ∧
      (Branch.node id kind span children).Stands d parent ∧
      d' = d.prune id (Branch.idsOfAll children) := by
  by_cases hroot : id = .root
  · rw [hroot, remove_on_root] at hdone
    cases hdone
  · cases hid : d.contains id with
    | false =>
      rw [remove_on_stale hroot hid] at hdone
      cases hdone
    | true =>
      obtain ⟨kind, span, children, parent, hs⟩ := h.exists_stands hid
      rw [remove_on h hroot hs] at hdone
      cases hdone
      exact ⟨kind, span, children, parent, hroot, hs, rfl⟩

/-- A replacement is an insertion before the node, with the removal of the node behind it. -/
theorem exists_insertBefore_of_replaceWith {a c : NodeId}
    (hdone : (replaceWith a c).on d = (.ok (), d')) :
    ∃ p between, d.parent? a = some p ∧ (insertBefore p a c).on d = (.ok (), between) ∧
      (remove a).on between = (.ok (), d') := by
  obtain ⟨node, between, hfind, hdone⟩ := on_bind_eq_ok hdone
  obtain ⟨hfound, rfl⟩ := Prod.mk.inj hfind
  have hn := get?_of_find (d := d) hfound
  cases hp : node.parent with
  | none =>
    rw [hp] at hdone
    cases hdone
  | some p =>
    rw [hp] at hdone
    obtain ⟨_, between, hinsert, hremove⟩ := on_bind_eq_ok hdone
    exact ⟨p, between, (parent?_of_get? hn).trans hp, hinsert, hremove⟩

end Edit

end Typography
