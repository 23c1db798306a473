import Typography.Proofs.Document.Edits

/-!
# What every edit keeps

Whatever is asked of a document and with whatever identifiers, it stays a forest.
As long as no kind is overwritten, it also stays `Housed`: a node with children is
a root, a rule or an at-rule with a block, so that a layout shows the children.
-/

namespace Typography

namespace NodeKind

/-- Kinds whose nodes are laid out with a block for their children. -/
def hasBlock : NodeKind → Bool
  | root | rule _ => true
  | atRule _ _ hasBlock => hasBlock
  | declaration .. | comment _ => false

theorem withBlock_of_hasBlock {kind : NodeKind} (h : kind.hasBlock) : kind.withBlock = kind := by
  cases kind <;> simp_all [hasBlock, withBlock]

theorem hasBlock_withBlock {kind : NodeKind} (h : kind.isContainer) :
    kind.withBlock.hasBlock := by
  cases kind <;> simp_all [hasBlock, withBlock, isContainer]

theorem isContainer_of_hasBlock {kind : NodeKind} (h : kind.hasBlock) : kind.isContainer := by
  cases kind <;> simp_all [hasBlock, isContainer]

@[simp] theorem withBlock_withBlock (kind : NodeKind) :
    kind.withBlock.withBlock = kind.withBlock := by
  cases kind <;> rfl

end NodeKind

/-- A node that got a child: an at-rule then has a block. -/
def Node.opened (node : Node) : Node := { node with kind := node.kind.withBlock }

theorem Node.opened_of_hasBlock {node : Node} (h : node.kind.hasBlock) : node.opened = node := by
  rw [opened, NodeKind.withBlock_of_hasBlock h]

namespace Document

/-- Every node with children has a block for them. -/
def Housed (d : Document) : Prop :=
  ∀ id node, d.get? id = some node → node.children ≠ [] → node.kind.hasBlock

/-- A forest whose children are all in blocks. -/
structure Sound (d : Document) : Prop where
  linked : d.Linked
  housed : d.Housed

variable {d : Document}

theorem housed_empty (file : Option String) : (empty file).Housed := by
  rintro ⟨n⟩ node hn hne
  match n with
  | 0 => simp [empty, get?] at hn
  | 1 =>
    have : node = .ofKind .root := (Option.some.inj hn).symm
    exact absurd (this ▸ rfl) hne
  | n + 2 => simp [empty, get?] at hn

theorem sound_empty (file : Option String) : (empty file).Sound :=
  ⟨linked_empty file, housed_empty file⟩

theorem Housed.push (h : d.Housed) (kind : NodeKind) : (d.push (.ofKind kind)).Housed := by
  intro id node hn hne
  rw [get?_push] at hn
  split at hn
  · have : node = .ofKind kind := (Option.some.inj hn).symm
    exact absurd (this ▸ rfl) hne
  · exact h id node hn hne

theorem Housed.modify (h : d.Housed) (id : NodeId) {f : Node → Node}
    (hkind : ∀ node, (f node).kind = node.kind)
    (hchildren : ∀ node, (f node).children = node.children) : (d.modify id f).Housed := by
  intro other node hn hne
  rw [get?_modify] at hn
  split at hn
  · obtain ⟨node', hn', rfl⟩ := Option.map_eq_some_iff.mp hn
    rw [hkind]
    rw [hchildren] at hne
    exact h other node' hn' hne
  · exact h other node hn hne

theorem Housed.move (h : d.Housed) (hl : d.Linked) {p c : NodeId} (hi : d.Insertable p c)
    (index : Nat) : (d.move p index c).Housed := by
  intro id node hn hne
  rw [hl.get?_move] at hn
  obtain ⟨node', hn', rfl⟩ := Option.map_eq_some_iff.mp hn
  by_cases hid : id = p
  · obtain ⟨parent, hp, hcontainer⟩ := hi.isContainer
    have heq : node' = parent := Option.some.inj (hn'.symm.trans (hid ▸ hp))
    simp only [if_pos hid, heq]
    exact NodeKind.hasBlock_withBlock hcontainer
  · simp only [if_neg hid] at hne ⊢
    apply h id node' hn'
    rintro hnil
    simp [hnil] at hne

theorem Housed.prune (h : d.Housed) (hl : d.Linked) (id : NodeId) (children : List Branch) :
    (d.prune id (Branch.idsOfAll children)).Housed := by
  intro other node hn hne
  rw [hl.get?_prune id .root none children] at hn
  split at hn
  · simp at hn
  · obtain ⟨node', hn', rfl⟩ := Option.map_eq_some_iff.mp hn
    apply h other node' hn'
    rintro hnil
    simp [hnil] at hne

end Document

namespace Edit

open Document

/-- The edit keeps a property of documents, done or refused. -/
def Keeps {α : Type} (P : Document → Prop) (e : Edit α) : Prop :=
  ∀ d, P d → P (e.on d).2

variable {α β : Type} {P : Document → Prop}

theorem Keeps.of_on {e : Edit α} (he : e.Keeps P) {d d' : Document} {result : Except TreeError α}
    (hd : P d) (hon : e.on d = (result, d')) : P d' := by
  have hkept := he d hd
  rwa [hon] at hkept

theorem keeps_pure (a : α) : (pure a : Edit α).Keeps P :=
  fun _ hd => hd

theorem keeps_throw (cause : TreeError) : (throw cause : Edit α).Keeps P :=
  fun _ hd => hd

theorem keeps_ask (f : Document → Except TreeError α) : (ask f).Keeps P :=
  fun _ hd => hd

theorem Keeps.bind {e : Edit α} {f : α → Edit β} (he : e.Keeps P) (hf : ∀ a, (f a).Keeps P) :
    (e >>= f).Keeps P := by
  intro d hd
  have hd' := he d hd
  rw [on_bind]
  generalize e.on d = r at hd' ⊢
  obtain ⟨result, d'⟩ := r
  cases result with
  | error cause => exact hd'
  | ok a => exact hf a d' hd'

/-- A property that moving and pruning keep is kept by the edits on the tree, which
change a forest in no other way. -/
structure Kept (P : Document → Prop) : Prop where
  linked : ∀ d, P d → d.Linked
  push : ∀ d kind, P d → P (d.push (.ofKind kind))
  setSpan : ∀ d id span, P d → P (d.modify id fun node => { node with span })
  move : ∀ d p index c, P d → d.Insertable p c →
    index ≤ ((d.detach c).childrenOf p).length → P (d.move p index c)
  prune : ∀ d id kind span children parent, P d → id ≠ .root →
    (Branch.node id kind span children).Stands d parent →
    P (d.prune id (Branch.idsOfAll children))

namespace Kept

variable (h : Kept P)
include h

theorem keeps_create (kind : NodeKind) : (create kind).Keeps P :=
  fun d hd => h.push d kind hd

theorem keeps_setSpan (id : NodeId) (span : Option Span) : (Edit.setSpan id span).Keeps P :=
  (keeps_ask _).bind fun _ d hd => h.setSpan d id span hd

theorem keeps_append (p c : NodeId) : (append p c).Keeps P := by
  intro d hd
  have hl := h.linked d hd
  rw [append_on hl]
  cases hcheck : d.checkInsertable p c with
  | error cause => exact hd
  | ok _ =>
    exact h.move d p _ c hd (hl.insertable_of_checkInsertable hcheck) (Nat.le_refl _)

theorem keeps_insertBefore (p a c : NodeId) : (insertBefore p a c).Keeps P := by
  intro d hd
  have hl := h.linked d hd
  rw [insertBefore_on hl]
  cases hcheck : d.checkInsertable p c with
  | error cause => exact hd
  | ok _ =>
    by_cases ha : a ∈ d.childrenOf p
    · by_cases hca : c = a
      · simpa [ha, hca] using hd
      · simp only [if_pos ha, if_neg hca]
        exact h.move d p _ c hd (hl.insertable_of_checkInsertable hcheck)
          List.idxOf_le_length
    · simpa [ha] using hd

theorem keeps_remove (id : NodeId) : (remove id).Keeps P := by
  intro d hd
  have hl := h.linked d hd
  by_cases hroot : id = .root
  · rw [hroot, remove_on_root]
    exact hd
  · cases hn : d.get? id with
    | none =>
      rw [remove_on_stale hroot (by simp [contains, hn])]
      exact hd
    | some node =>
      obtain ⟨b, hb, hs⟩ := hl.exists_branch hn
      obtain ⟨bid, kind, span, children⟩ := b
      obtain rfl : bid = id := hb
      rw [remove_on hl hroot hs]
      exact h.prune d bid kind span children _ hd hroot hs

theorem keeps_replaceWith (a c : NodeId) : (replaceWith a c).Keeps P := by
  refine (keeps_ask _).bind fun node => ?_
  split
  · exact keeps_throw _
  · exact (h.keeps_insertBefore _ a c).bind fun _ => h.keeps_remove a

end Kept

theorem kept_linked : Kept Linked where
  linked _ hd := hd
  push _ kind hd := hd.push kind
  setSpan _ id _ hd := hd.modify id (fun _ => rfl) fun _ => rfl
  move _ _ _ _ hd hi hindex := hd.move hi hindex
  prune _ _ _ _ _ _ hd hroot hs := hd.prune hs hroot

theorem kept_sound : Kept Sound where
  linked _ hd := hd.linked
  push _ kind hd := ⟨hd.linked.push kind, hd.housed.push kind⟩
  setSpan _ id _ hd :=
    ⟨hd.linked.modify id (fun _ => rfl) fun _ => rfl,
      hd.housed.modify id (fun _ => rfl) fun _ => rfl⟩
  move _ _ index _ hd hi hindex := ⟨hd.linked.move hi hindex, hd.housed.move hd.linked hi index⟩
  prune _ id _ _ children _ hd hroot hs :=
    ⟨hd.linked.prune hs hroot, hd.housed.prune hd.linked id children⟩

/-- A kind can be overwritten without harm to the forest. -/
theorem keeps_setKind_linked (id : NodeId) (kind : NodeKind) :
    (Edit.setKind id kind).Keeps Linked :=
  (keeps_ask _).bind fun _ _ hd => hd.modify id (fun _ => rfl) fun _ => rfl

end Edit

end Typography
