import Typography.Proofs.Document.Forest
import Typography.Proofs.Expansion.Outcome

/-!
# Expanding again

A pass visits the nodes that were below the root when it started. `Document.Steady` says
that the steps of a pass leave it nothing else to visit: a node that there was keeps its
parent and what it is, until it is gone, and no new node is a shorthand. So a node that is
below the root at the end and was there at the start was visited, and a second pass finds
nothing, `Document.expand_expand`. Nothing is assumed of the kinds, which may have been
overwritten; whatever a step needs of them was checked when it was done.
-/

namespace Typography

namespace NodeKind

@[simp] theorem shorthand?_withBlock (kind : NodeKind) :
    kind.withBlock.shorthand? = kind.shorthand? := by
  cases kind <;> rfl

/-- Shorthands are the at-rules and the declarations of one name. -/
theorem shorthand?_eq_none_iff {kind : NodeKind} :
    kind.shorthand? = none ↔
      kind.isAtRuleNamed shorthandName = false ∧ kind.isDeclarationOf shorthandName = false := by
  cases kind <;> simp [shorthand?, isAtRuleNamed, isDeclarationOf]

end NodeKind

namespace Document

variable {start d d' d'' : Document}

/-- The forest `d` has come of `start` without a change to what stands where: the nodes that
are left of `start` are what they were, below the same parents, and no shorthand is new. -/
structure Steady (start d : Document) : Prop where
  linked : d.Linked
  size_le : start.slots.size ≤ d.slots.size
  old : ∀ x, x.serial < start.slots.size → d.contains x →
    start.contains x ∧ d.parent? x = start.parent? x ∧ d.shorthand? x = start.shorthand? x
  new : ∀ x, start.slots.size ≤ x.serial → d.shorthand? x = none

theorem shorthand?_of_not_contains {x : NodeId} (hx : d.contains x = false) :
    d.shorthand? x = none := by
  rw [contains, Option.isSome_eq_false_iff, Option.isNone_iff_eq_none] at hx
  rw [shorthand?, hx, Option.bind_none]

theorem shorthand?_of_size_le {x : NodeId} (hx : d.slots.size ≤ x.serial) :
    d.shorthand? x = none := by
  refine shorthand?_of_not_contains (Bool.eq_false_iff.mpr fun hlive => ?_)
  exact absurd (serial_lt_of_contains hlive) (Nat.not_lt.mpr hx)

theorem Linked.shorthand?_move (h : d.Linked) (p : NodeId) (index : Nat) (c x : NodeId) :
    (d.move p index c).shorthand? x = d.shorthand? x := by
  rw [shorthand?, shorthand?, h.get?_move]
  cases d.get? x with
  | none => rfl
  | some node => by_cases hx : x = p <;> simp [hx]

/-- A node that is left by a removal is not of the branch, and keeps its parent and what it
is. -/
theorem Linked.of_contains_prune (h : d.Linked) {id : NodeId} (kind : NodeKind)
    (span : Option Span) {children : List Branch} {x : NodeId}
    (hx : (d.prune id (Branch.idsOfAll children)).contains x) :
    x ∉ (Branch.node id kind span children).ids ∧ d.contains x ∧
      (d.prune id (Branch.idsOfAll children)).parent? x = d.parent? x ∧
      (d.prune id (Branch.idsOfAll children)).shorthand? x = d.shorthand? x := by
  have hget := h.get?_prune id kind span children x
  by_cases hmem : x ∈ (Branch.node id kind span children).ids
  · rw [contains, hget, if_pos hmem] at hx
    cases hx
  · rw [if_neg hmem] at hget
    rw [contains, hget, Option.isSome_map] at hx
    refine ⟨hmem, hx, ?_, ?_⟩
    · rw [parent?, parent?, hget]
      cases d.get? x <;> rfl
    · rw [shorthand?, shorthand?, hget]
      cases d.get? x <;> rfl

namespace Steady

/-- A document that has no node but nodes of another one is steady if these are what they
were. -/
theorem of_contains (hd' : d'.Linked) (hsize : d.slots.size ≤ d'.slots.size)
    (h : ∀ x, d'.contains x →
      d.contains x ∧ d'.parent? x = d.parent? x ∧ d'.shorthand? x = d.shorthand? x) :
    d.Steady d' where
  linked := hd'
  size_le := hsize
  old x _ hx := h x hx
  new x hge := by
    cases hx : d'.contains x with
    | false => exact shorthand?_of_not_contains hx
    | true => rw [(h x hx).2.2, shorthand?_of_size_le hge]

theorem refl (h : d.Linked) : d.Steady d :=
  of_contains h (Nat.le_refl _) fun _ hx => ⟨hx, rfl, rfl⟩

/-- What is no shorthand does not become one. -/
theorem shorthand?_eq_none (h : d.Steady d') {x : NodeId} (hx : d.shorthand? x = none) :
    d'.shorthand? x = none := by
  cases hlive : d'.contains x with
  | false => exact shorthand?_of_not_contains hlive
  | true =>
    rcases Nat.lt_or_ge x.serial d.slots.size with hlt | hge
    · rw [(h.old x hlt hlive).2.2, hx]
    · exact h.new x hge

theorem trans (h : d.Steady d') (h' : d'.Steady d'') : d.Steady d'' where
  linked := h'.linked
  size_le := Nat.le_trans h.size_le h'.size_le
  old x hlt hx := by
    obtain ⟨hlive, hparent, hshorthand⟩ := h'.old x (Nat.lt_of_lt_of_le hlt h.size_le) hx
    rw [hparent, hshorthand]
    exact h.old x hlt hlive
  new x hge := h'.shorthand?_eq_none (h.new x hge)

/-- A node that stands alone may come, unless it is a shorthand. -/
theorem generated (hd' : d'.Linked) {kind : NodeKind} {span : Option Span}
    (hget : ∀ x, d'.get? x = if x = d.nextId then some ⟨kind, none, [], span⟩ else d.get? x)
    (hsize : d'.slots.size = d.slots.size + 1) (hkind : kind.shorthand? = none) :
    d.Steady d' where
  linked := hd'
  size_le := hsize ▸ Nat.le_succ _
  old x hlt hx := by
    have hsame : d'.get? x = d.get? x := by
      rw [hget, if_neg]
      rintro rfl
      exact Nat.lt_irrefl _ hlt
    rw [contains, hsame] at hx
    rw [parent?, shorthand?, hsame]
    exact ⟨hx, rfl, rfl⟩
  new x hge := by
    rw [shorthand?, hget]
    by_cases hid : x = d.nextId
    · rw [if_pos hid, Option.bind_some, hkind]
    · rw [if_neg hid]
      exact shorthand?_of_size_le hge

/-- A node that was not there at the start may be put below another one. -/
theorem move (h : start.Steady d) {p c : NodeId} {index : Nat} (hi : d.Insertable p c)
    (hindex : index ≤ ((d.detach c).childrenOf p).length) (hc : start.slots.size ≤ c.serial) :
    start.Steady (d.move p index c) where
  linked := h.linked.move hi hindex
  size_le := h.size_le.trans_eq (size_slots_move ..).symm
  old x hlt hx := by
    have hne : x ≠ c := by
      rintro rfl
      exact absurd hlt (Nat.not_lt.mpr hc)
    rw [h.linked.contains_move] at hx
    rw [h.linked.parent?_move_of_ne p index hne, h.linked.shorthand?_move]
    exact h.old x hlt hx
  new x hge := by
    rw [h.linked.shorthand?_move]
    exact h.new x hge

theorem prune (h : d.Linked) {id : NodeId} {kind : NodeKind} {span : Option Span}
    {children : List Branch} {parent : Option NodeId} (hroot : id ≠ .root)
    (hs : (Branch.node id kind span children).Stands d parent) :
    d.Steady (d.prune id (Branch.idsOfAll children)) :=
  of_contains (h.prune hs hroot) (size_slots_prune ..).ge fun _ hx =>
    (h.of_contains_prune kind span hx).2

end Steady

end Document

namespace Edit

open Document

variable {start d d' : Document}

theorem steady_append (h : start.Steady d) {p c : NodeId} (hc : start.slots.size ≤ c.serial)
    (hdone : (append p c).on d = (.ok (), d')) : start.Steady d' := by
  obtain ⟨index, hi, hindex, rfl⟩ := eq_move_of_append h.linked hdone
  exact h.move hi hindex hc

theorem steady_insertBefore (h : start.Steady d) {p a c : NodeId}
    (hc : start.slots.size ≤ c.serial) (hdone : (insertBefore p a c).on d = (.ok (), d')) :
    start.Steady d' := by
  rcases eq_move_of_insertBefore h.linked hdone with rfl | ⟨index, hi, hindex, rfl⟩
  · exact h
  · exact h.move hi hindex hc

theorem steady_remove (h : start.Steady d) {id : NodeId}
    (hdone : (remove id).on d = (.ok (), d')) : start.Steady d' ∧ d'.contains id = false := by
  obtain ⟨kind, span, children, parent, hroot, hs, rfl⟩ := eq_prune_of_remove h.linked hdone
  refine ⟨h.trans (.prune h.linked hroot hs), Bool.eq_false_iff.mpr fun hlive => ?_⟩
  exact (h.linked.of_contains_prune kind span hlive).1 (Branch.id_mem_ids _)

theorem steady_replaceWith (h : start.Steady d) {a c : NodeId} (hc : start.slots.size ≤ c.serial)
    (hdone : (replaceWith a c).on d = (.ok (), d')) :
    start.Steady d' ∧ d'.contains a = false := by
  obtain ⟨p, between, -, hinsert, hremove⟩ := exists_insertBefore_of_replaceWith hdone
  exact steady_remove (steady_insertBefore h hc hinsert) hremove

end Edit

namespace Passing

open Document

variable {start : Document} {pass pass' : Pass}

theorem steady_generate (h : start.Steady pass.document) {kind : NodeKind} {span : Option Span}
    (hkind : kind.shorthand? = none) {id : NodeId}
    (hdone : (generate kind span).on pass = (.ok id, pass')) :
    start.Steady pass'.document ∧ start.slots.size ≤ id.serial := by
  obtain ⟨d', hon, hget, hsize⟩ := generate_on kind span pass
  have hd' : d'.Linked := (keeps_generate Edit.kept_linked kind span).of_on h.linked hon
  rw [hon] at hdone
  cases hdone
  exact ⟨h.trans (.generated hd' hget hsize hkind), h.size_le⟩

theorem steady_mapM_generate {span : Option Span} {values : List (String × String)}
    (hvalues : ∀ pair ∈ values, pair.1 ≠ shorthandName) :
    ∀ {pass pass' : Pass} {ids : List NodeId}, start.Steady pass.document →
      (values.mapM fun pair => generate (.declaration pair.1 pair.2 false) span).on pass =
        (.ok ids, pass') →
      start.Steady pass'.document ∧ ∀ id ∈ ids, start.slots.size ≤ id.serial := by
  induction values with
  | nil =>
    intro pass pass' ids h hdone
    cases hdone
    exact ⟨h, by simp⟩
  | cons pair values ih =>
    intro pass pass' ids h hdone
    rw [List.mapM_cons] at hdone
    obtain ⟨id, between, hone, hdone⟩ := on_bind_eq_ok hdone
    obtain ⟨others, between', hmore, hdone⟩ := on_bind_eq_ok hdone
    cases hdone
    have hkind : (NodeKind.declaration pair.1 pair.2 false).shorthand? = none :=
      if_neg (by simpa using hvalues pair List.mem_cons_self)
    obtain ⟨hbetween, hid⟩ := steady_generate h hkind hone
    obtain ⟨hend, hothers⟩ := ih (fun p hp => hvalues p (List.mem_cons_of_mem _ hp)) hbetween hmore
    exact ⟨hend, List.forall_mem_cons.mpr ⟨hid, hothers⟩⟩

/-- What each edit of a loop keeps when it is done, the loop keeps. -/
theorem forM_edit_invariant {P : Document → Prop} {put : NodeId → Edit PUnit} {ids : List NodeId}
    (hput : ∀ id ∈ ids, ∀ d d', P d → (put id).on d = (.ok (), d') → P d') :
    ∀ {pass pass' : Pass}, P pass.document →
      (ids.forM fun id => edit (put id)).on pass = (.ok (), pass') → P pass'.document := by
  induction ids with
  | nil =>
    intro pass pass' h hdone
    cases hdone
    exact h
  | cons id ids ih =>
    intro pass pass' h hdone
    obtain ⟨_, between, hone, hdone⟩ := on_bind_eq_ok hdone
    refine ih (fun x hx => hput x (List.mem_cons_of_mem _ hx)) ?_ hdone
    exact hput id List.mem_cons_self _ _ h (on_edit_eq_ok hone)

theorem document_of_ask {α : Type} {f : Document → Except TreeError α} {a : α}
    (hdone : (edit (Edit.ask f)).on pass = (.ok a, pass')) : pass.document = pass'.document :=
  congrArg Prod.snd (on_edit_eq_ok hdone)

theorem steady_replaceShorthand (h : start.Steady pass.document) {anchor : NodeId}
    {span : Option Span} {media : Option String} {ids : List NodeId}
    (hids : ∀ id ∈ ids, start.slots.size ≤ id.serial)
    (hdone : (replaceShorthand anchor span media ids).on pass = (.ok (), pass')) :
    start.Steady pass'.document ∧ pass'.document.contains anchor = false := by
  cases media with
  | some query =>
    obtain ⟨block, made, hmade, hdone⟩ := on_bind_eq_ok hdone
    obtain ⟨_, filled, hfilled, hdone⟩ := on_bind_eq_ok hdone
    obtain ⟨_, replaced, hreplaced, hdone⟩ := on_bind_eq_ok hdone
    obtain ⟨hsteady, hblock⟩ := steady_generate h rfl hmade
    have hfull := forM_edit_invariant
      (fun id hid _ _ hd => Edit.steady_append hd (hids id hid)) hsteady hfilled
    have hend := Edit.steady_replaceWith hfull hblock (on_edit_eq_ok hreplaced)
    cases hdone
    exact hend
  | none =>
    obtain ⟨node, found, hfound, hdone⟩ := on_bind_eq_ok hdone
    cases hp : node.parent with
    | none =>
      rw [hp] at hdone
      cases hdone
    | some p =>
      rw [hp] at hdone
      obtain ⟨_, filled, hfilled, hremoved⟩ := on_bind_eq_ok hdone
      have hsteady := forM_edit_invariant
        (fun id hid _ _ hd => Edit.steady_insertBefore hd (hids id hid))
        (document_of_ask hfound ▸ h) hfilled
      exact Edit.steady_remove hsteady (on_edit_eq_ok hremoved)

/-- An expansion of a shorthand that is done has removed it. -/
theorem steady_expandShorthand (h : start.Steady pass.document) {rootSize : Option String}
    {anchor : NodeId} {raw : String}
    (hdone : (expandShorthand rootSize anchor raw).on pass = (.ok (), pass')) :
    start.Steady pass'.document ∧ pass'.document.contains anchor = false := by
  cases hsize : (Shorthand.ofText raw).fontSize with
  | none =>
    rw [expandShorthand_of_isNone hsize] at hdone
    cases hdone
  | some size =>
    unfold expandShorthand at hdone
    dsimp only at hdone
    rw [hsize, if_neg (by simp)] at hdone
    obtain ⟨node, found, hfound, hdone⟩ := on_bind_eq_ok hdone
    obtain ⟨ids, made, hmade, hdone⟩ := on_bind_eq_ok hdone
    obtain ⟨_, replaced, hreplaced, hdone⟩ := on_bind_eq_ok hdone
    obtain ⟨hsteady, hids⟩ := steady_mapM_generate
      (fun _ => Shorthand.property_ne_of_mem_declarationsOf) (document_of_ask hfound ▸ h) hmade
    have hend := steady_replaceShorthand hsteady hids hreplaced
    -- the event and the counts do not touch the document
    cases hdone
    exact hend

/-- What was visited is no shorthand any more. -/
theorem steady_visit (h : pass.document.Linked) {rootSize : Option String} {id : NodeId}
    (hdone : (visit rootSize id).on pass = (.ok (), pass')) :
    pass.document.Steady pass'.document ∧ pass'.document.shorthand? id = none := by
  cases hraw : pass.document.shorthand? id with
  | none =>
    have hon : (visit rootSize id).on pass = (.ok (), pass) :=
      visit_of_none fun node hn => (shorthand?_of_get? hn).symm.trans hraw
    rw [hon] at hdone
    cases hdone
    exact ⟨.refl h, hraw⟩
  | some raw =>
    obtain ⟨node, hn, hkind⟩ := exists_get?_of_shorthand? hraw
    rw [visit_of_shorthand hn hkind] at hdone
    obtain ⟨hsteady, hgone⟩ := steady_expandShorthand (.refl h) hdone
    exact ⟨hsteady, shorthand?_of_not_contains hgone⟩

theorem steady_visits {rootSize : Option String} {ids : List NodeId} :
    ∀ {pass pass' : Pass}, pass.document.Linked →
      (ids.forM (visit rootSize)).on pass = (.ok (), pass') →
      pass.document.Steady pass'.document ∧ ∀ id ∈ ids, pass'.document.shorthand? id = none := by
  induction ids with
  | nil =>
    intro pass pass' h hdone
    cases hdone
    exact ⟨.refl h, by simp⟩
  | cons id ids ih =>
    intro pass pass' h hdone
    obtain ⟨_, between, hone, hmore⟩ := on_bind_eq_ok hdone
    obtain ⟨hsteady, hid⟩ := steady_visit h hone
    obtain ⟨hsteady', hids⟩ := ih hsteady.linked hmore
    exact ⟨hsteady.trans hsteady',
      List.forall_mem_cons.mpr ⟨hsteady'.shorthand?_eq_none hid, hids⟩⟩

/-- Visits of nodes that are no shorthands come to nothing. -/
theorem forM_visit_of_none {rootSize : Option String} {ids : List NodeId}
    (h : ∀ id ∈ ids, pass.document.shorthand? id = none) :
    (ids.forM (visit rootSize)).on pass = (.ok (), pass) := by
  induction ids with
  | nil => rfl
  | cons id ids ih =>
    have hvisit : (visit rootSize id).on pass = (.ok (), pass) := visit_of_none fun node hn =>
      (shorthand?_of_get? hn).symm.trans (h id List.mem_cons_self)
    exact (on_bind_of_ok hvisit).trans (ih fun x hx => h x (List.mem_cons_of_mem _ hx))

end Passing

namespace Document

variable {d d' : Document}

/-- A node that is left below the root was there before, unless it is new. -/
theorem Steady.over_root (h : d.Steady d') (hd : d.Linked) {x : NodeId} (hx : d'.Over .root x)
    (hlt : x.serial < d.slots.size) : d.Over .root x := by
  induction hx with
  | refl => exact Relation.ReflTransGen.refl
  | @tail p x _ hpx ih =>
    have hparent : d.Above p x := (h.old x hlt (contains_of_parent? hpx)).2.1.symm.trans hpx
    exact (ih (serial_lt_of_contains (hd.contains_parent hparent))).tail hparent

/-- The walk from the root meets the nodes below the root. -/
theorem Linked.exists_walk (h : d.Linked) :
    ∃ ids, d.walk .root = .ok ids ∧ ∀ x, x ∈ ids ↔ d.Over .root x ∧ x ≠ .root := by
  obtain ⟨kind, span, bs, hroot, -⟩ := h.exists_root
  exact ⟨Branch.idsOfAll bs, h.walk_eq hroot, fun _ => h.mem_idsOfAll_iff hroot⟩

/-- A pass that is done has checked its options, and has visited what the walk met. -/
theorem exists_visits_of_expand_ok {options : Options} {report : Report} {ids : List NodeId}
    (hwalk : d.walk .root = .ok ids) (hdone : (d.expand options).result = .ok report) :
    ∃ pass, (ids.forM (Passing.visit options.usedRootSize)).on ⟨d, .zero, #[]⟩ = (.ok (), pass) ∧
      (d.expand options).document = pass.document := by
  cases hvalid : options.validate with
  | error cause =>
    rw [expand_of_validate_error hvalid] at hdone
    cases hdone
  | ok _ =>
    obtain ⟨result, pass, hon⟩ : ∃ result pass,
        (ids.forM (Passing.visit options.usedRootSize)).on ⟨d, .zero, #[]⟩ = (result, pass) :=
      ⟨_, _, rfl⟩
    cases result with
    | error cause =>
      rw [(expand_of_visits_error hvalid hwalk hon).1] at hdone
      cases hdone
    | ok _ => exact ⟨pass, hon, (expand_of_visits_ok hvalid hwalk hon).2⟩

/-- A pass that is done leaves no shorthand below the root, that is, among the nodes that the
walk from the root meets, and a pass behind it, with any options that are not refused, does
nothing. -/
theorem expand_expand (h : d.Reached fun _ => True) {options : Options} {report : Report}
    (hdone : (d.expand options).result = .ok report) :
    ∃ ids, (d.expand options).document.walk .root = .ok ids ∧
      (∀ x ∈ ids, ∃ node, (d.expand options).document.get? x = some node ∧
        node.kind.isAtRuleNamed shorthandName = false ∧
        node.kind.isDeclarationOf shorthandName = false) ∧
      ∀ again : Options, again.validate = .ok () →
        ((d.expand options).document.expand again).result = .ok .zero ∧
          ((d.expand options).document.expand again).document = (d.expand options).document := by
  obtain ⟨visited, hwalk, hvisited⟩ := h.linked.exists_walk
  obtain ⟨pass, hon, hdocument⟩ := exists_visits_of_expand_ok hwalk hdone
  have hlinked : (⟨d, .zero, #[]⟩ : Pass).document.Linked := h.linked
  obtain ⟨hsteady, hnone⟩ := Passing.steady_visits hlinked hon
  rw [hdocument]
  obtain ⟨ids, hwalk', hids⟩ := hsteady.linked.exists_walk
  -- what was there at the start was visited, and nothing new is a shorthand
  have hleft : ∀ x ∈ ids, pass.document.shorthand? x = none := by
    intro x hx
    rcases Nat.lt_or_ge x.serial d.slots.size with hlt | hge
    · obtain ⟨hbelow, hne⟩ := (hids x).mp hx
      exact hnone x ((hvisited x).mpr ⟨hsteady.over_root h.linked hbelow hlt, hne⟩)
    · exact hsteady.new x hge
  refine ⟨ids, hwalk', fun x hx => ?_, fun again hvalid => ?_⟩
  · obtain ⟨hbelow, -⟩ := (hids x).mp hx
    have hlive := contains_of_over hsteady.linked.contains_root hbelow
    obtain ⟨node, hn⟩ := exists_get?_of_contains hlive
    refine ⟨node, hn, NodeKind.shorthand?_eq_none_iff.mp ?_⟩
    rw [← shorthand?_of_get? hn, hleft x hx]
  · exact expand_of_visits_ok hvalid hwalk' (Passing.forM_visit_of_none hleft)

/-- A rule becomes an at-rule that says it has no block, the root becomes a shorthand, and so do
a declaration and a media block with a shorthand in it. -/
def ofRetypedNodes : Document :=
  [.setKind ⟨2⟩ (.atRule "page" "" false), .setKind ⟨3⟩ (.declaration "type" "--m 3em" true),
    .setKind ⟨5⟩ (.atRule "type" "2em / 1" false), .setKind .root (.atRule "type" "" false),
    .create (.rule "f"), .create (.declaration "type" "4em"), .append ⟨7⟩ ⟨8⟩].foldl
      Operation.apply (.ofTrees none (Reading.ofText
        "a \x7b b: c; d: e \x7d @media (--s) \x7b type: 1em \x7d").trees)

theorem expand_expand_ofRetypedNodes :
    (ofRetypedNodes.Reached fun _ => True) ∧
      (ofRetypedNodes.expand .unset).result = .ok ⟨2, 3, 1⟩ ∧
      ((ofRetypedNodes.expand .unset).document.expand .unset).result = .ok .zero ∧
      ((ofRetypedNodes.expand .unset).document.expand .unset).document =
        (ofRetypedNodes.expand .unset).document := by
  have hreached : ofRetypedNodes.Reached fun _ => True :=
    (Reached.read none "a \x7b b: c; d: e \x7d @media (--s) \x7b type: 1em \x7d").foldl
      fun _ _ => trivial
  have hdone : (ofRetypedNodes.expand .unset).result = .ok ⟨2, 3, 1⟩ := by decide +kernel
  obtain ⟨-, -, -, hagain⟩ := expand_expand hreached hdone
  exact ⟨hreached, hdone, hagain .unset rfl⟩

end Document

end Typography
