import Typography.Proofs.Expansion.Passing
import Typography.Proofs.Expansion.Rewrite

/-!
# Putting new branches in the place of a node

A replacement goes in three steps: new branches are created, which stand alone at
first, they are put before the node that they replace, and the node is removed
with all that is below it. No step is refused, and what comes of them is
`Document.Replaced`: the new branches stand at the place of the node, the nodes of
its branch are gone, and the rest of the document is as it was.
-/

namespace Typography

namespace Branch

/-- A branch of one node. -/
def leaf (span : Option Span) (id : NodeId) (kind : NodeKind) : Branch :=
  node id kind span []

@[simp] theorem id_leaf (span : Option Span) (id : NodeId) (kind : NodeKind) :
    (leaf span id kind).id = id := rfl

@[simp] theorem ids_leaf (span : Option Span) (id : NodeId) (kind : NodeKind) :
    (leaf span id kind).ids = [id] := rfl

@[simp] theorem tree_leaf (span : Option Span) (id : NodeId) (kind : NodeKind) :
    (leaf span id kind).tree = .node kind span [] := rfl

end Branch

namespace Document

/-- Branches of new nodes that have no parent yet. -/
structure Fresh (new : List Branch) (d d' : Document) : Prop where
  stands : Branch.AllStand d' none new
  nodup : (Branch.idsOfAll new).Nodup
  le_serial : ∀ x ∈ Branch.idsOfAll new, d.slots.size ≤ x.serial
  sameBut : SameBut [] d d'
  live : ∀ x, d'.contains x → d.contains x ∨ x ∈ Branch.idsOfAll new

theorem SameBut.trans_fresh {d d' d'' : Document} {touched : List NodeId} (h : SameBut [] d d')
    (h' : SameBut touched d' d'') : SameBut touched d d'' :=
  (h.mono (by simp)).trans h'

/-- A node below which branches were put, if there are any. -/
def openedFor (node : Node) : List Branch → Node
  | [] => node
  | _ :: _ => node.opened

/-- Where branches were put. -/
structure PlacedAll (new : List Branch) (p : NodeId) (node : Node) (children : List NodeId)
    (d d' : Document) : Prop where
  get?_parent : d'.get? p = some { node with children }
  stands : Branch.AllStand d' (some p) new
  sameBut : SameBut (p :: new.map Branch.id) d d'
  size_eq : d'.slots.size = d.slots.size

variable {d d' : Document}

@[simp] theorem openedFor_cons (node : Node) (b : Branch) (bs : List Branch) :
    openedFor node (b :: bs) = node.opened := rfl

/-- A node that has a child already is not changed by more of them. -/
theorem openedFor_opened (node : Node) (children : List NodeId) (bs : List Branch) :
    openedFor { node.opened with children } bs = { node.opened with children } := by
  cases bs with
  | nil => rfl
  | cons b bs => rw [openedFor_cons, Node.opened, Node.opened, NodeKind.withBlock_withBlock]

/-- One branch was put in place, and then the others. -/
theorem Placed.cons {d'' : Document} {b : Branch} {new : List Branch} {p : NodeId} {node : Node}
    {children more : List NodeId} (h : Placed b p node.opened children d d')
    (hrest : PlacedAll new p { node.opened with children } more d' d'') (hout : p ∉ b.ids)
    (hdisjoint : ∀ x ∈ b.ids, x ∉ Branch.idsOfAll new) :
    PlacedAll (b :: new) p (openedFor node (b :: new)) more d d'' where
  get?_parent := hrest.get?_parent
  stands := by
    refine ⟨hrest.sameBut.stands h.stands fun x hx hmem => ?_, hrest.stands⟩
    rcases List.mem_cons.mp hmem with rfl | hmem
    · exact hout hx
    · exact hdisjoint x hx (Branch.mem_idsOfAll_of_mem_map hmem)
  sameBut := by
    refine (h.sameBut.mono ?_).trans (hrest.sameBut.mono ?_)
    · intro x hx
      simp only [List.mem_cons, List.not_mem_nil, or_false] at hx
      rcases hx with rfl | rfl <;> simp
    · intro x hx
      rw [List.map_cons]
      rcases List.mem_cons.mp hx with rfl | hx
      · exact .inl List.mem_cons_self
      · exact .inl (List.mem_cons_of_mem _ (List.mem_cons_of_mem _ hx))
  size_eq := hrest.size_eq.trans h.size_eq

theorem openedFor_of_hasBlock {node : Node} (h : node.kind.hasBlock) (bs : List Branch) :
    openedFor node bs = node := by
  cases bs with
  | nil => rfl
  | cons b bs => exact Node.opened_of_hasBlock h

theorem Fresh.nil (d : Document) : Fresh [] d d where
  stands := trivial
  nodup := List.nodup_nil
  le_serial := by simp
  sameBut := .refl [] d
  live := fun _ => .inl

theorem Fresh.not_mem {new : List Branch} (h : Fresh new d d') {x : NodeId}
    (hx : d.contains x) : x ∉ Branch.idsOfAll new := by
  intro hmem
  have hlt := serial_lt_of_contains hx
  have hle := h.le_serial x hmem
  omega

theorem Fresh.ne_root {new : List Branch} (h : Fresh new d d') (hd : d.Linked) :
    ∀ b ∈ new, b.id ≠ .root := by
  intro b hb hroot
  exact h.not_mem hd.contains_root (hroot ▸ Branch.id_mem_idsOfAll hb)

theorem Fresh.of_generated {kind : NodeKind} {span : Option Span}
    (hget : ∀ x, d'.get? x = if x = d.nextId then some ⟨kind, none, [], span⟩ else d.get? x)
    (hsize : d'.slots.size = d.slots.size + 1) : Fresh [.leaf span d.nextId kind] d d' where
  stands := ⟨⟨by rw [hget, if_pos rfl]; rfl, trivial⟩, trivial⟩
  nodup := List.nodup_singleton _
  le_serial := by simp [nextId]
  sameBut := by
    refine ⟨by omega, fun x _ hlt => ?_⟩
    rw [hget, if_neg]
    rintro rfl
    exact Nat.lt_irrefl _ hlt
  live := by
    intro x hx
    by_cases hid : x = d.nextId
    · exact .inr (by simp [hid])
    · rw [contains, hget, if_neg hid] at hx
      exact .inl hx

theorem Fresh.append {d'' : Document} {new more : List Branch} (h : Fresh new d d')
    (h' : Fresh more d' d'') : Fresh (new ++ more) d d'' where
  stands := Branch.allStand_append.mpr
    ⟨h'.sameBut.allStand h.stands (by simp), h'.stands⟩
  nodup := by
    rw [Branch.idsOfAll_append, List.nodup_append]
    refine ⟨h.nodup, h'.nodup, fun x hx y hy heq => ?_⟩
    exact h'.not_mem (h.stands.contains x hx) (heq ▸ hy)
  le_serial := by
    rw [Branch.idsOfAll_append]
    exact h.sameBut.le_serial_append h.le_serial h'.le_serial
  sameBut := h.sameBut.trans h'.sameBut
  live := by
    rw [Branch.idsOfAll_append]
    exact live_append h.live h'.live

end Document

namespace Edit

open Document

theorem forM_cons_on {put : NodeId → Edit PUnit} {d d' : Document} {id : NodeId}
    (h : (put id).on d = (.ok (), d')) (ids : List NodeId) :
    ((id :: ids).forM put).on d = (ids.forM put).on d' :=
  on_bind_of_ok h

theorem keeps_forM {P : Document → Prop} {put : NodeId → Edit PUnit}
    (hput : ∀ id, (put id).Keeps P) (ids : List NodeId) : (ids.forM put).Keeps P := by
  induction ids with
  | nil => exact keeps_pure _
  | cons id ids ih => exact (hput id).bind fun _ => ih

/-- Branches without a parent are put below a node one after the other. What
`put` does with one is given; `after` are the children behind the place. -/
theorem forM_put_on (put : NodeId → Edit PUnit) {p : NodeId} (after : List NodeId)
    (hkeeps : ∀ id, (put id).Keeps Linked)
    (hput : ∀ {d : Document} {b : Branch} {node : Node} {before : List NodeId}, d.Linked →
      b.Stands d none → d.get? p = some node → node.children = before ++ after →
      node.kind.isContainer → b.id ≠ .root → p ∉ b.ids →
      ∃ d', (put b.id).on d = (.ok (), d') ∧
        Placed b p node.opened (before ++ b.id :: after) d d') :
    ∀ {new : List Branch} {d : Document} {node : Node} {before : List NodeId}, d.Linked →
      Branch.AllStand d none new → (Branch.idsOfAll new).Nodup → d.get? p = some node →
      node.children = before ++ after → (new ≠ [] → node.kind.isContainer) →
      (∀ b ∈ new, b.id ≠ .root) → p ∉ Branch.idsOfAll new →
      ∃ d', ((new.map Branch.id).forM put).on d = (.ok (), d') ∧
        PlacedAll new p (openedFor node new) (before ++ new.map Branch.id ++ after) d d' := by
  intro new
  induction new with
  | nil =>
    intro d node before hd hnew hnodup hp hchildren hcontainer hroot hout
    refine ⟨d, rfl, ?_, trivial, .refl _ d, rfl⟩
    rw [hp, List.map_nil, List.append_nil, ← hchildren]
    rfl
  | cons b new ih =>
    intro d node before hd hnew hnodup hp hchildren hcontainer hroot hout
    have hcontainer := hcontainer (List.cons_ne_nil b new)
    rw [Branch.allStand_cons] at hnew
    rw [Branch.idsOfAll_cons, List.nodup_append] at hnodup
    rw [Branch.idsOfAll_cons, List.mem_append, not_or] at hout
    have hdisjoint : ∀ x ∈ b.ids, x ∉ Branch.idsOfAll new :=
      fun x hx hmem => hnodup.2.2 x hx x hmem rfl
    obtain ⟨d₁, hon, hplaced⟩ :=
      hput hd hnew.1 hp hchildren hcontainer (hroot b List.mem_cons_self) hout.1
    have hd₁ : d₁.Linked := (hkeeps b.id).of_on hd hon
    have hrest : Branch.AllStand d₁ none new := by
      refine hplaced.sameBut.allStand hnew.2 fun x hx hmem => ?_
      simp only [List.mem_cons, List.not_mem_nil, or_false] at hmem
      rcases hmem with rfl | rfl
      · exact hout.2 hx
      · exact hdisjoint _ b.id_mem_ids hx
    obtain ⟨d₂, hon₂, hplaced₂⟩ := ih hd₁ hrest hnodup.2.1 hplaced.get?_parent
      (show _ = (before ++ [b.id]) ++ after by simp)
      (fun _ => (NodeKind.isContainer_withBlock node.kind).trans hcontainer)
      (fun c hc => hroot c (List.mem_cons_of_mem _ hc)) hout.2
    rw [openedFor_opened] at hplaced₂
    refine ⟨d₂, by rw [List.map_cons, forM_cons_on hon, hon₂], ?_⟩
    rw [List.map_cons, List.append_cons]
    exact hplaced.cons hplaced₂ hout.1 hdisjoint

end Edit

namespace Document

variable {d d' : Document}

/-- What comes of putting new branches in the place of the branch `b`, which is the
child of `p` between `before` and `after`. -/
structure Replaced (b : Branch) (p : NodeId) (node : Node) (before after : List NodeId)
    (new : List Branch) (d d' : Document) : Prop where
  get?_parent : d'.get? p = some { node with children := before ++ new.map Branch.id ++ after }
  stands : Branch.AllStand d' (some p) new
  gone : ∀ x ∈ b.ids, d'.get? x = none
  le_serial : ∀ x ∈ Branch.idsOfAll new, d.slots.size ≤ x.serial
  sameBut : SameBut (p :: b.ids) d d'
  live : ∀ x, d'.contains x → d.contains x ∨ x ∈ Branch.idsOfAll new

/-- Where branches were put, no other node has come. -/
theorem PlacedAll.live {new : List Branch} {p : NodeId} {node : Node} {children : List NodeId}
    (h : PlacedAll new p node children d d') (hp : d.contains p) {x : NodeId}
    (hx : d'.contains x) : d.contains x ∨ x ∈ Branch.idsOfAll new := by
  by_cases htouched : x ∈ p :: new.map Branch.id
  · rcases List.mem_cons.mp htouched with rfl | hmem
    · exact .inl hp
    · exact .inr (Branch.mem_idsOfAll_of_mem_map hmem)
  · have hlt := serial_lt_of_contains hx
    rw [h.size_eq] at hlt
    rw [contains, h.sameBut.get?_eq x htouched hlt] at hx
    exact .inl hx

/-- Fresh branches are put before a child, and the child is removed. -/
theorem Linked.replace_on (h : d.Linked) {b : Branch} {p : NodeId} {node : Node}
    {before after : List NodeId} (hb : b.Stands d (some p)) (hp : d.get? p = some node)
    (hchildren : node.children = before ++ b.id :: after) {new : List Branch}
    (hcontainer : new ≠ [] → node.kind.isContainer) (hd' : d'.Linked) (hnew : Fresh new d d') :
    ∃ d₁ d₂, ((new.map Branch.id).forM (Edit.insertBefore p b.id)).on d' = (.ok (), d₁) ∧
      (Edit.remove b.id).on d₁ = (.ok (), d₂) ∧
      Replaced b p (openedFor node new) before after new d d₂ := by
  have hpd : d.contains p := contains_of_get? hp
  have hpb := h.parent_notMem_ids hb
  have hb' : b.Stands d' (some p) := hb.congr fun x hx =>
    hnew.sameBut.get?_of_contains (by simp) (hb.contains x hx)
  have hp' : d'.get? p = some node := by
    rw [hnew.sameBut.get?_of_contains (by simp) hpd, hp]
  have hkeeps := Edit.kept_linked.keeps_insertBefore p b.id
  obtain ⟨d₁, hon₁, hplaced⟩ := Edit.forM_put_on _ (b.id :: after) hkeeps
    (fun hd hs hp hc hkind hroot hout => hd.insertBefore_on hs hp hc hkind hroot hout)
    hd' hnew.stands hnew.nodup hp' hchildren hcontainer (hnew.ne_root h) (hnew.not_mem hpd)
  have hd₁ : d₁.Linked := (Edit.keeps_forM hkeeps (new.map Branch.id)).of_on hd' hon₁
  have hsame : SameBut [p] d d₁ := by
    refine (hnew.sameBut.trans_fresh hplaced.sameBut).mono fun x hx => ?_
    rcases List.mem_cons.mp hx with rfl | hx
    · simp
    · exact .inr (hnew.le_serial x (Branch.mem_idsOfAll_of_mem_map hx))
  have hb₁ : b.Stands d₁ (some p) := hb.congr fun x hx =>
    hsame.get?_of_contains (fun hmem => hpb (List.mem_singleton.mp hmem ▸ hx)) (hb.contains x hx)
  obtain ⟨d₂, hon₂, hget, hgone, hremoved, hsize⟩ :=
    hd₁.remove_on hb₁ hplaced.get?_parent rfl
  refine ⟨d₁, d₂, hon₁, hon₂, hget, ?_, hgone, hnew.le_serial, ?_, fun x hx => ?_⟩
  · refine hremoved.allStand hplaced.stands fun x hx hmem => ?_
    rcases List.mem_cons.mp hmem with rfl | hmem
    · exact hnew.not_mem hpd hx
    · exact hnew.not_mem (hb.contains x hmem) hx
  · exact (hsame.mono (by simp)).trans hremoved
  · have hlt := serial_lt_of_contains hx
    by_cases hxp : x = p
    · exact .inl (hxp ▸ hpd)
    · have hxb : x ∉ b.ids := fun hmem => by simp [contains, hgone x hmem] at hx
      rw [contains, hremoved.get?_eq x (by simp [hxp, hxb]) (hsize ▸ hlt)] at hx
      rcases hplaced.live (contains_of_get? hp') hx with hx | hx
      · exact hnew.live x hx
      · exact .inr hx

/-- A new node with a block takes fresh branches in. -/
theorem Fresh.enclose (h : d.Linked) {new : List Branch} (hnew : Fresh new d d')
    {kind : NodeKind} (hblock : kind.hasBlock) {span : Option Span} {d₁ : Document}
    (hd₁ : d₁.Linked)
    (hget : ∀ x, d₁.get? x = if x = d'.nextId then some ⟨kind, none, [], span⟩ else d'.get? x)
    (hsize : d₁.slots.size = d'.slots.size + 1) :
    ∃ d₂, ((new.map Branch.id).forM (Edit.append d'.nextId)).on d₁ = (.ok (), d₂) ∧
      Fresh [.node d'.nextId kind span new] d d₂ := by
  have hgenerated := Fresh.of_generated hget hsize
  have hboth := hnew.append hgenerated
  have hid : d'.nextId ∉ Branch.idsOfAll new := by
    have := hboth.nodup
    rw [Branch.idsOfAll_append, List.nodup_append] at this
    exact fun hmem => this.2.2 _ hmem _ (by simp) rfl
  have hnew₁ := hgenerated.sameBut.allStand hnew.stands (by simp)
  obtain ⟨d₂, hon, hplaced⟩ := Edit.forM_put_on (Edit.append d'.nextId) []
    (Edit.kept_linked.keeps_append d'.nextId)
    (fun hd hs hp hc hkind hroot hout => by
      rw [List.append_nil] at hc
      exact hc ▸ hd.append_on hs hp hkind hroot hout)
    hd₁ hnew₁ hnew.nodup ((hget d'.nextId).trans (if_pos rfl)) (List.nil_append []).symm
    (fun _ => NodeKind.isContainer_of_hasBlock hblock) (hnew.ne_root h) hid
  rw [List.nil_append, List.append_nil, openedFor_of_hasBlock (by exact hblock)] at hplaced
  refine ⟨d₂, hon, ⟨⟨hplaced.get?_parent, hplaced.stands⟩, trivial⟩, ?_, ?_, ?_, ?_⟩
  · rw [Branch.idsOfAll_singleton_node, List.nodup_cons]
    exact ⟨hid, hnew.nodup⟩
  · intro x hx
    rw [Branch.idsOfAll_singleton_node] at hx
    rcases List.mem_cons.mp hx with rfl | hx
    · exact hnew.sameBut.size_le
    · exact hnew.le_serial x hx
  · refine (hboth.sameBut.trans_fresh hplaced.sameBut).mono fun x hx => .inr ?_
    rcases List.mem_cons.mp hx with rfl | hx
    · exact hnew.sameBut.size_le
    · exact hnew.le_serial x (Branch.mem_idsOfAll_of_mem_map hx)
  · intro x hx
    rw [Branch.idsOfAll_singleton_node, List.mem_cons]
    rcases hplaced.live (contains_of_get? ((hget d'.nextId).trans (if_pos rfl))) hx with hx | hx
    · rcases hgenerated.live x hx with hx | hx
      · exact (hnew.live x hx).imp_right .inr
      · exact .inr (.inl (by simpa using hx))
    · exact .inr (.inr hx)

end Document

namespace Passing

open Document

theorem on_bind_congr {α β : Type} {m m' : Passing α} {pass pass' : Pass}
    (h : m.on pass = m'.on pass') (f : α → Passing β) :
    (m >>= f).on pass = (m' >>= f).on pass' := by
  rw [on_bind, on_bind, h]

/-- An edit in two steps is two edits. -/
theorem edit_bind_on {α β : Type} (e : Edit α) (f : α → Edit β) (pass : Pass) :
    (edit (e >>= f)).on pass = (edit e >>= fun a => edit (f a)).on pass := by
  rw [on_edit, Edit.on_bind, on_bind, on_edit]
  generalize e.on pass.document = r
  obtain ⟨result, d'⟩ := r
  cases result with
  | error cause => rfl
  | ok a => exact (on_edit { pass with document := d' } (f a)).symm

/-- To count nothing changes nothing. -/
theorem on_bind_count_zero (m : Passing Unit) (pass : Pass) :
    (m >>= fun _ => count 0 0 0).on pass = m.on pass := by
  rw [on_bind]
  generalize m.on pass = r
  obtain ⟨result, pass'⟩ := r
  cases result <;> rfl

theorem forM_edit_on {put : NodeId → Edit PUnit} {ids : List NodeId} {pass : Pass} {d' : Document}
    (h : (ids.forM put).on pass.document = (.ok (), d')) :
    (ids.forM fun id => edit (put id)).on pass = (.ok (), { pass with document := d' }) := by
  induction ids generalizing pass with
  | nil =>
    cases h
    rfl
  | cons id ids ih =>
    change ((put id) >>= fun _ => ids.forM put).on pass.document = _ at h
    rw [Edit.on_bind] at h
    change (edit (put id) >>= fun _ => ids.forM fun id => edit (put id)).on pass = _
    generalize hput : (put id).on pass.document = r at h
    obtain ⟨_ | ⟨⟩, d₁⟩ := r
    · simp at h
    · rw [on_bind_of_ok (on_edit_of_ok pass hput), ih h]

/-- A generated node is new and stands alone. -/
theorem generate_on (kind : NodeKind) (span : Option Span) (pass : Pass) :
    ∃ d', (generate kind span).on pass =
        (.ok pass.document.nextId, { pass with document := d' }) ∧
      (∀ x, d'.get? x = if x = pass.document.nextId then some ⟨kind, none, [], span⟩
        else pass.document.get? x) ∧ d'.slots.size = pass.document.slots.size + 1 := by
  have hget := get?_push pass.document (.ofKind kind)
  have hspan : (Edit.setSpan pass.document.nextId span).on (pass.document.push (.ofKind kind)) =
      (.ok (), (pass.document.push (.ofKind kind)).modify pass.document.nextId
        fun node => { node with span }) := by
    rw [Edit.setSpan, Edit.on_bind]
    simp only [Edit.on_ask]
    rw [find_of_get? (by rw [hget, if_pos rfl])]
    rfl
  refine ⟨(pass.document.push (.ofKind kind)).modify pass.document.nextId
    fun node => { node with span }, ?_, fun x => ?_, by simp⟩
  · rw [generate, on_bind_of_ok (on_edit_of_ok pass (Edit.on_create ..)),
      on_bind_of_ok (on_edit_of_ok _ hspan)]
    rfl
  · rw [get?_modify, hget]
    by_cases hx : x = pass.document.nextId <;> simp [hx, Node.ofKind]

theorem mapM_generate_on (span : Option Span) (values : List (String × String)) (pass : Pass) :
    ∃ new d', (values.mapM fun pair =>
        generate (.declaration pair.1 pair.2 false) span).on pass =
          (.ok (new.map Branch.id), { pass with document := d' }) ∧
      Fresh new pass.document d' ∧ Branch.trees new = Tree.generated span values := by
  induction values generalizing pass with
  | nil => exact ⟨[], _, rfl, .nil _, rfl⟩
  | cons value values ih =>
    obtain ⟨property, value⟩ := value
    obtain ⟨d₁, hon, hget, hsize⟩ := generate_on (.declaration property value false) span pass
    obtain ⟨new, d₂, hon₂, hfresh, htrees⟩ := ih { pass with document := d₁ }
    refine ⟨.leaf span pass.document.nextId (.declaration property value false) :: new, d₂, ?_,
      (Fresh.of_generated hget hsize).append hfresh, ?_⟩
    · rw [List.mapM_cons, on_bind_of_ok hon, on_bind_of_ok hon₂]
      rfl
    · rw [Branch.trees_cons, htrees, Branch.tree_leaf]
      rfl

/-- The last steps of a replacement: new nodes are put before the node `anchor` that stands
below `p`, and this node is removed. -/
def supplant (p anchor : NodeId) (ids : List NodeId) : Passing Unit := do
  ids.forM fun id => edit (Edit.insertBefore p anchor id)
  edit (Edit.remove anchor)

theorem exists_find_of_stands {d : Document} {b : Branch} {p : NodeId}
    (hb : b.Stands d (some p)) : ∃ anchor, d.find b.id = .ok anchor ∧ anchor.parent = some p := by
  obtain ⟨id, kind, span, children⟩ := b
  exact ⟨_, find_of_get? hb.1, rfl⟩

theorem replaceWith_on {pass : Pass} {b : Branch} {p : NodeId}
    (hb : b.Stands pass.document (some p)) (id : NodeId) :
    (edit (Edit.replaceWith b.id id)).on pass = (supplant p b.id [id]).on pass := by
  obtain ⟨anchor, hfind, hparent⟩ := exists_find_of_stands hb
  rw [Edit.replaceWith, edit_bind_on,
    on_bind_of_ok (on_edit_of_ok pass (by rw [Edit.on_ask, hfind]))]
  simp only [hparent]
  rw [edit_bind_on]
  exact on_bind_congr (congrArg (on · pass) bind_pure_unit.symm) _

/-- Fresh declarations are put into a new block if there is a query. What is left to do then is
to put the result in the place of the shorthand. -/
theorem replaceShorthand_on {d : Document} (hd : d.Linked) {b : Branch} {p : NodeId}
    (hb : b.Stands d (some p)) (pass : Pass) (hpass : pass.document.Linked) {new : List Branch}
    (hnew : Fresh new d pass.document) (span : Option Span) (media : Option String) :
    ∃ placed d', Fresh placed d d' ∧ d'.Linked ∧
      (Branch.trees placed = match media with
        | some query => [.node (.mediaBlock query) span (Branch.trees new)]
        | none => Branch.trees new) ∧
      (replaceShorthand b.id span media (new.map Branch.id)).on pass =
        (supplant p b.id (placed.map Branch.id) >>= fun _ =>
          count 0 0 media.toList.length).on { pass with document := d' } := by
  cases media with
  | none =>
    obtain ⟨anchor, hfind, hparent⟩ := exists_find_of_stands (hnew.sameBut.stands hb (by simp))
    refine ⟨new, pass.document, hnew, hpass, rfl, ?_⟩
    rw [replaceShorthand, on_bind_of_ok (on_edit_of_ok pass (by rw [Edit.on_ask, hfind]))]
    simp only [hparent]
    exact (on_bind_count_zero _ _).symm
  | some query =>
    obtain ⟨d₁, hon₁, hget, hsize⟩ := generate_on (.mediaBlock query) span pass
    have hd₁ : d₁.Linked := (keeps_generate Edit.kept_linked _ span).of_on hpass hon₁
    obtain ⟨d₂, hon₂, hfresh⟩ := hnew.enclose hd rfl hd₁ hget hsize
    have hd₂ : d₂.Linked :=
      (Edit.keeps_forM (Edit.kept_linked.keeps_append pass.document.nextId) _).of_on hd₁ hon₂
    refine ⟨_, d₂, hfresh, hd₂, rfl, ?_⟩
    rw [replaceShorthand, on_bind_of_ok hon₁, on_bind_of_ok (forM_edit_on hon₂)]
    exact on_bind_congr (replaceWith_on (hfresh.sameBut.stands hb (by simp)) _) _

/-- Below a parent that takes them in, fresh branches get the place of a node. -/
theorem supplant_on {d : Document} (hd : d.Linked) {b : Branch} {p : NodeId} {node : Node}
    {before after : List NodeId} (hb : b.Stands d (some p)) (hp : d.get? p = some node)
    (hchildren : node.children = before ++ b.id :: after) {pass : Pass}
    (hpass : pass.document.Linked) {new : List Branch} (hnew : Fresh new d pass.document)
    (hcontainer : new ≠ [] → node.kind.isContainer) :
    ∃ d', (supplant p b.id (new.map Branch.id)).on pass = (.ok (), { pass with document := d' }) ∧
      Replaced b p (openedFor node new) before after new d d' := by
  obtain ⟨d₁, d₂, hon₁, hon₂, hreplaced⟩ := hd.replace_on hb hp hchildren hcontainer hpass hnew
  refine ⟨d₂, ?_, hreplaced⟩
  rw [supplant, on_bind_of_ok (forM_edit_on hon₁), on_edit_of_ok _ hon₂]

/-- Below a parent that takes no children, the first of them is refused. -/
theorem supplant_of_not_isContainer {pass : Pass} (hd : pass.document.Linked) {p : NodeId}
    {node : Node} (hp : pass.document.get? p = some node) (hkind : node.kind.isContainer = false)
    (anchor id : NodeId) (ids : List NodeId) :
    (supplant p anchor (id :: ids)).on pass = (.error (.tree .notAContainer), pass) := by
  refine on_bind_of_error (on_bind_of_error ?_)
  rw [on_edit, Edit.insertBefore_on hd, checkInsertable_of_not_isContainer hp hkind]
  rfl

theorem expandShorthand_of_isNone {rootSize : Option String} {raw : String}
    (hsize : (Shorthand.ofText raw).fontSize = none) (anchor : NodeId) (pass : Pass) :
    (expandShorthand rootSize anchor raw).on pass =
      (.error (.missingFontSize (pass.document.location? anchor)), pass) := by
  unfold expandShorthand
  dsimp only
  rw [hsize, if_pos Option.isNone_none]
  rfl

/-- A shorthand with a font size is expanded in two parts: what it stands for is created, away
from the root, and then gets its place. -/
theorem expandShorthand_eq {pass : Pass} (hd : pass.document.Linked) {b : Branch} {p : NodeId}
    (hb : b.Stands pass.document (some p)) (rootSize : Option String) {raw : String}
    (hsize : (Shorthand.ofText raw).fontSize.isSome) :
    ∃ new d' event, Fresh new pass.document d' ∧ d'.Linked ∧
      Branch.trees new = Tree.replacement rootSize b.tree.span raw ∧
      (expandShorthand rootSize b.id raw).on pass =
        (do
          supplant p b.id (new.map Branch.id)
          count 0 0 (Shorthand.ofText raw).media.toList.length
          log event
          count 1 (Shorthand.declarationsOf rootSize raw).length 0 : Passing Unit).on
            { pass with document := d' } := by
  obtain ⟨id, kind, span, children⟩ := b
  obtain ⟨new, d₁, hon₁, hfresh, htrees⟩ :=
    mapM_generate_on span (Shorthand.declarationsOf rootSize raw) pass
  have hd₁ : d₁.Linked :=
    (keeps_mapM fun pair => keeps_generate Edit.kept_linked _ span).of_on hd hon₁
  have hlength : new.length = (Shorthand.declarationsOf rootSize raw).length := by
    have := congrArg List.length htrees
    rwa [Branch.trees_eq_map, List.length_map, Tree.generated, List.length_map] at this
  obtain ⟨placed, d₂, hplaced, hd₂, htrees₂, hon₂⟩ := replaceShorthand_on hd hb
    { pass with document := d₁ } hd₁ hfresh span (Shorthand.ofText raw).media
  refine ⟨placed, d₂, .expandedShorthand raw (span.map Span.start) (Shorthand.ofText raw).media
    (Shorthand.declarationsOf rootSize raw).length, hplaced, hd₂, ?_, ?_⟩
  · rw [htrees₂, htrees, Tree.replacement, Branch.tree, Tree.span_node]
    cases (Shorthand.ofText raw).media <;> rfl
  · rw [Branch.id] at hon₂ ⊢
    unfold expandShorthand
    dsimp only
    rw [if_neg (by simp [Option.isSome_iff_ne_none.mp hsize]),
      on_bind_of_ok (on_edit_of_ok pass (by rw [Edit.on_ask, find_of_get? hb.1])),
      ← bind_assoc, ← hlength, ← List.length_map Branch.id]
    exact (on_bind_of_ok hon₁).trans (on_bind_congr hon₂ fun _ =>
      log (.expandedShorthand raw (span.map Span.start) (Shorthand.ofText raw).media
        (new.map Branch.id).length) >>= fun _ => count 1 (new.map Branch.id).length 0)

/-- A shorthand with a font size is replaced by what it stands for, unless this is something
and the parent takes no children. -/
theorem expandShorthand_of_takes {pass : Pass} (hd : pass.document.Linked) {b : Branch}
    {p : NodeId} {node : Node} {before after : List NodeId}
    (hb : b.Stands pass.document (some p)) (hp : pass.document.get? p = some node)
    (hchildren : node.children = before ++ b.id :: after) (rootSize : Option String) {raw : String}
    (hsize : (Shorthand.ofText raw).fontSize.isSome)
    (htakes : Tree.replacement rootSize b.tree.span raw ≠ [] → node.kind.isContainer) :
    ∃ new pass', (expandShorthand rootSize b.id raw).on pass = (.ok (), pass') ∧
      Replaced b p (openedFor node new) before after new pass.document pass'.document ∧
      Branch.trees new = Tree.replacement rootSize b.tree.span raw ∧
      pass'.report = pass.report.plus 1 (Shorthand.declarationsOf rootSize raw).length
        (Shorthand.ofText raw).media.toList.length := by
  obtain ⟨new, d₁, event, hfresh, hd₁, htrees, hexpand⟩ := expandShorthand_eq hd hb rootSize hsize
  have hpass : ({ pass with document := d₁ } : Pass).document.Linked := hd₁
  have hcontainer : new ≠ [] → node.kind.isContainer := fun hne => htakes fun hnil => hne (by
    rwa [← htrees, Branch.trees_eq_map, List.map_eq_nil_iff] at hnil)
  obtain ⟨d₂, hon, hreplaced⟩ := supplant_on hd hb hp hchildren hpass hfresh hcontainer
  rw [on_bind_of_ok hon] at hexpand
  exact ⟨new, _, hexpand, hreplaced, htrees, by simp [Report.plus]⟩

/-- Below a node with a block, every shorthand with a font size is replaced. -/
theorem expandShorthand_on {pass : Pass} (hd : pass.document.Linked) {b : Branch} {p : NodeId}
    {node : Node} {before after : List NodeId} (hb : b.Stands pass.document (some p))
    (hp : pass.document.get? p = some node) (hchildren : node.children = before ++ b.id :: after)
    (hblock : node.kind.hasBlock) (rootSize : Option String) {raw : String}
    (hsize : (Shorthand.ofText raw).fontSize.isSome) :
    ∃ new pass', (expandShorthand rootSize b.id raw).on pass = (.ok (), pass') ∧
      Replaced b p node before after new pass.document pass'.document ∧
      Branch.trees new = Tree.replacement rootSize b.tree.span raw ∧
      pass'.report = pass.report.plus 1 (Shorthand.declarationsOf rootSize raw).length
        (Shorthand.ofText raw).media.toList.length := by
  obtain ⟨new, pass', hon, hreplaced, hrest⟩ := expandShorthand_of_takes hd hb hp hchildren rootSize
    hsize fun _ => NodeKind.isContainer_of_hasBlock hblock
  rw [openedFor_of_hasBlock hblock] at hreplaced
  exact ⟨new, pass', hon, hreplaced, hrest⟩

/-- Where the parent takes no children, what a shorthand stands for is created and then refused,
and it stays away from the root. -/
theorem expandShorthand_of_refused {pass : Pass} (hd : pass.document.Linked) {b : Branch}
    {p : NodeId} {node : Node} (hb : b.Stands pass.document (some p))
    (hp : pass.document.get? p = some node) (hkind : node.kind.isContainer = false)
    (rootSize : Option String) {raw : String} (hsize : (Shorthand.ofText raw).fontSize.isSome)
    (hne : Tree.replacement rootSize b.tree.span raw ≠ []) :
    ∃ new pass', (expandShorthand rootSize b.id raw).on pass =
        (.error (.tree .notAContainer), pass') ∧
      Fresh new pass.document pass'.document ∧
      Branch.trees new = Tree.replacement rootSize b.tree.span raw := by
  obtain ⟨new, d₁, event, hfresh, hd₁, htrees, hexpand⟩ := expandShorthand_eq hd hb rootSize hsize
  obtain ⟨c, cs, rfl⟩ : ∃ c cs, new = c :: cs := by
    refine List.exists_cons_of_ne_nil fun hnil => hne ?_
    rw [← htrees, hnil, Branch.trees_nil]
  have hp' : d₁.get? p = some node := by
    rw [hfresh.sameBut.get?_of_contains (by simp) (contains_of_get? hp), hp]
  refine ⟨c :: cs, { pass with document := d₁ }, ?_, hfresh, htrees⟩
  rw [hexpand]
  exact on_bind_of_error (supplant_of_not_isContainer hd₁ hp' hkind b.id c.id _)

theorem visit_of_none {rootSize : Option String} {id : NodeId} {pass : Pass}
    (h : ∀ node, pass.document.get? id = some node → node.kind.shorthand? = none) :
    (visit rootSize id).on pass = (.ok (), pass) := by
  rw [visit, on_bind_of_ok (on_get pass)]
  split
  · rfl
  · rename_i node hn
    rw [h node hn]
    rfl

theorem visit_of_shorthand {rootSize : Option String} {id : NodeId} {pass : Pass} {node : Node}
    (hn : pass.document.get? id = some node) {raw : String} (h : node.kind.shorthand? = some raw) :
    (visit rootSize id).on pass = (expandShorthand rootSize id raw).on pass := by
  rw [visit, on_bind_of_ok (on_get pass), hn]
  simp only [h]

end Passing

end Typography
