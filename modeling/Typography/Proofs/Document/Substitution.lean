import Typography.Proofs.Document.Insertion
import Typography.Proofs.Document.Removal

/-!
# A node in the place of another

A replacement puts a node before its anchor and removes the anchor then. The node may stand
anywhere: alone, beside the anchor, elsewhere, or below the anchor, from where it is taken out
with all that is below it before the rest goes. `Document.Substituted` says the same of all of
these. It is put together from what an insertion and what a removal come to; between the two,
what is below the anchor is what was there, without the branch of the node,
`Document.Inserted.over_iff`.

A node that is to replace itself is not put anywhere and is removed, so the replacement is its
removal. `Edit.substituted_of_reached` says what a replacement comes to in either case.
-/

namespace Typography

namespace Document

/-- The document `d'` has come of `d` by putting `c` in the place of the child `a` of `p`,
between `before` and `after`, and removing `a` with the nodes that were below it and not
below `c`. -/
structure Substituted (p a c : NodeId) (before after : List NodeId) (d d' : Document) :
    Prop where
  parent?_anchor : d.parent? a = some p
  contains_node : d'.contains c
  get?_node : d'.get? c = (d.get? c).map fun node => { node with parent := some p }
  /-- What is below the node is what was below it, and is as it was. -/
  over_iff : ∀ x, d'.Over c x ↔ d.Over c x
  get?_below : ∀ x, d.Over c x → x ≠ c → d'.get? x = d.get? x
  children_eq : (d.childrenOf p).filter (· ≠ c) = before ++ a :: after
  get?_parent : d'.get? p = (d.get? p).map fun node =>
    { node with kind := node.kind.withBlock, children := before ++ c :: after }
  contains_iff : ∀ x, d'.contains x ↔ d.contains x ∧ ¬ (d.Over a x ∧ ¬ d.Over c x)
  get?_former : ∀ q, d.parent? c = some q → q ≠ p → ¬ d.Over a q →
    d'.get? q = (d.get? q).map fun node =>
      { node with children := node.children.filter (· ≠ c) }
  get?_other : ∀ x, x ≠ p → x ≠ c → d.parent? c ≠ some x → ¬ d.Over a x → d'.get? x = d.get? x
  file_eq : d'.file = d.file

variable {d between d' : Document} {p a c : NodeId} {before after : List NodeId}

/-- An insertion away from `a` leaves below `a` what was there, but for the branch that was
moved away. -/
theorem Inserted.over_iff (h : Inserted p c before after d d') (hc : d.contains c)
    (hca : ¬ d.Over c a) (hap : ¬ d.Over a p) (x : NodeId) :
    d'.Over a x ↔ d.Over a x ∧ ¬ d.Over c x := by
  constructor
  · intro ho
    induction ho with
    | refl => exact ⟨Relation.ReflTransGen.refl, hca⟩
    | @tail q x _ hqx ih =>
      have hne : x ≠ c := by
        rintro rfl
        obtain rfl : p = q := Option.some.inj ((h.parent?_child hc).symm.trans hqx)
        exact hap ih.1
      have hqx' : d.Above q x := (h.parent?_of_ne hne).symm.trans hqx
      refine ⟨ih.1.tail hqx', fun hcx => ?_⟩
      obtain ⟨r, hcr, hrx⟩ := exists_above_of_over hcx hne
      obtain rfl : r = q := Option.some.inj (hrx.symm.trans hqx')
      exact ih.2 hcr
  · rintro ⟨ho, hcx⟩
    induction ho with
    | refl => exact Relation.ReflTransGen.refl
    | @tail q x _ hqx ih =>
      have hne : x ≠ c := by
        rintro rfl
        exact hcx Relation.ReflTransGen.refl
      have hqx' : d'.Above q x := (h.parent?_of_ne hne).trans hqx
      exact (ih fun hcq => hcx (hcq.tail hqx)).tail hqx'

/-- Below a node there are the same nodes if it and those below it have the same children. -/
theorem Linked.over_iff_of_children (h : d.Linked) (h' : d'.Linked)
    (hchildren : ∀ x, d.Over c x → d'.childrenOf x = d.childrenOf x) (x : NodeId) :
    d'.Over c x ↔ d.Over c x := by
  have habove : ∀ q x, d.Over c q → (d'.Above q x ↔ d.Above q x) := by
    intro q x hq
    rw [Above, Above, ← h'.mem_childrenOf_iff, ← h.mem_childrenOf_iff, hchildren q hq]
  constructor
  · intro ho
    induction ho with
    | refl => exact Relation.ReflTransGen.refl
    | tail _ hqx ih => exact ih.tail ((habove _ _ ih).mp hqx)
  · intro ho
    induction ho with
    | refl => exact Relation.ReflTransGen.refl
    | tail hcq hqx ih => exact ih.tail ((habove _ _ hcq).mpr hqx)

section

variable (hi : d.Insertable p c) (hpa : d.parent? a = some p) (hca : c ≠ a)
  (hinserted : Inserted p c before (a :: after) d between) (hremoved : Removed a between d')
include hi hpa hca hinserted hremoved

/-- The removal of the anchor leaves what the insertion has made of the nodes, but for the
parent and what goes with the anchor. -/
theorem Linked.get?_of_removed (h : d.Linked) {x : NodeId} (hxp : x ≠ p)
    (hx : d.Over a x → d.Over c x) : d'.get? x = between.get? x := by
  have hover := hinserted.over_iff hi.contains (hi.not_over_child hpa hca)
    (h.not_over_of_above hpa)
  refine hremoved.get?_other x (fun ho => ?_) ?_
  · exact ((hover x).mp ho).2 (hx ((hover x).mp ho).1)
  · rw [hinserted.parent?_of_ne hca.symm, hpa]
    simpa using hxp.symm

/-- The parent has lost the anchor, behind which the node does not stand any more. -/
theorem Linked.get?_parent_of_removed (hbetween : between.Linked) :
    d'.get? p = (d.get? p).map fun node =>
      { node with kind := node.kind.withBlock, children := before ++ c :: after } := by
  have hnodup := hbetween.nodup_childrenOf p
  rw [hinserted.childrenOf_parent hi.contains_parent, List.append_cons] at hnodup
  have hwithout := filter_ne_append_cons hnodup
  rw [← List.append_cons, ← List.append_cons] at hwithout
  rw [hremoved.get?_parent p ((hinserted.parent?_of_ne hca.symm).trans hpa),
    hinserted.get?_parent, Option.map_map]
  simp only [Function.comp_def, hwithout]

/-- A node that was put before its anchor takes the place of the anchor when this is
removed. -/
theorem Linked.substituted (h : d.Linked) (hbetween : between.Linked) (h' : d'.Linked) :
    Substituted p a c before after d d' := by
  have hover := hinserted.over_iff hi.contains (hi.not_over_child hpa hca)
    (h.not_over_of_above hpa)
  have hleft : ∀ x, x ≠ p → (d.Over a x → d.Over c x) → d'.get? x = between.get? x :=
    fun _ => h.get?_of_removed hi hpa hca hinserted hremoved
  have hnode : d'.get? c = (d.get? c).map fun node => { node with parent := some p } := by
    rw [hleft c hi.ne.symm fun _ => Relation.ReflTransGen.refl, hinserted.get?_child]
  have hbelow : ∀ x, d.Over c x → x ≠ c → d'.get? x = d.get? x := by
    intro x hcx hxc
    have hxp : x ≠ p := by
      rintro rfl
      exact hi.not_over hcx
    rw [hleft x hxp fun _ => hcx]
    exact hinserted.get?_other x hxp hxc fun hx => h.not_over_of_above hx hcx
  have hchildren : ∀ x, d.Over c x → d'.childrenOf x = d.childrenOf x := by
    intro x hcx
    by_cases hxc : x = c
    · rw [hxc, childrenOf, childrenOf, hnode]
      cases d.get? c <;> rfl
    · rw [childrenOf, childrenOf, hbelow x hcx hxc]
  have hcontains : ∀ x, d'.contains x ↔ d.contains x ∧ ¬ (d.Over a x ∧ ¬ d.Over c x) := by
    intro x
    rw [hremoved.contains_iff, hinserted.contains_eq, hover]
  refine ⟨hpa, ?_, hnode, h.over_iff_of_children h' hchildren, hbelow, hinserted.children_eq,
    hbetween.get?_parent_of_removed hi hpa hca hinserted hremoved, hcontains,
    fun q hq hqp haq => ?_, fun x hxp hxc hx hax => ?_,
    hremoved.file_eq.trans hinserted.file_eq⟩
  · exact (hcontains c).mpr ⟨hi.contains, fun hgone => hgone.2 Relation.ReflTransGen.refl⟩
  · rw [hleft q hqp fun ho => absurd ho haq]
    exact hinserted.get?_former q hq hqp
  · rw [hleft x hxp fun ho => absurd ho hax]
    exact hinserted.get?_other x hxp hxc hx

end

end Document

namespace Edit

open Document

variable {d : Document} {a c : NodeId}

theorem replaceWith_eq_ok_iff (h : d.Linked) :
    (∃ d', (replaceWith a c).on d = (.ok (), d')) ↔
      ∃ p, d.parent? a = some p ∧ d.Insertable p c := by
  constructor
  · rintro ⟨d', hdone⟩
    obtain ⟨p, between, hp, hinsert, -⟩ := exists_insertBefore_of_replaceWith hdone
    exact ⟨p, hp, ((insertBefore_eq_ok_iff h).mp ⟨between, hinsert⟩).1⟩
  · rintro ⟨p, hp, hi⟩
    have ha : a ∈ d.childrenOf p := (h.mem_childrenOf_iff p a).mpr hp
    obtain ⟨between, hinsert⟩ := (insertBefore_eq_ok_iff h).mpr ⟨hi, ha⟩
    obtain ⟨d', hremove⟩ := remove_on_of_insertBefore h hp hinsert
    obtain ⟨node, hn⟩ := exists_get?_of_contains (contains_of_parent? hp)
    refine ⟨d', ?_⟩
    unfold replaceWith
    rw [on_bind_of_ok (by rw [on_ask, find_of_get? hn]), ← parent?_of_get? hn, hp]
    exact (on_bind_of_ok hinsert).trans hremove

/-- In every document a replacement is done exactly when the anchor has a parent that the node
may be put below. Then the node has the place of the anchor; if it is the anchor itself, it
is gone with all that was below it. -/
theorem substituted_of_reached (h : d.Reached fun _ => True) (a c : NodeId) :
    ((∃ d', (replaceWith a c).on d = (.ok (), d')) ↔
        ∃ p, d.parent? a = some p ∧ d.Insertable p c) ∧
      ∀ d', (replaceWith a c).on d = (.ok (), d') →
        (c ≠ a → ∃ p before after, Substituted p a c before after d d') ∧
          (c = a → Removed a d d') := by
  have hl := h.linked
  refine ⟨replaceWith_eq_ok_iff hl, fun d' hdone => ?_⟩
  have hl' : d'.Linked := (kept_linked.keeps_replaceWith a c).of_on hl hdone
  obtain ⟨p, between, hpa, hinsert, hremove⟩ := exists_insertBefore_of_replaceWith hdone
  have hbetween : between.Linked := (kept_linked.keeps_insertBefore p a c).of_on hl hinsert
  have hremoved := removed_of_remove hbetween hremove
  refine ⟨fun hca => ?_, fun hca => ?_⟩
  · have hi := ((insertBefore_eq_ok_iff hl).mp ⟨between, hinsert⟩).1
    obtain ⟨before, after, hinserted⟩ := exists_inserted_of_insertBefore hl hca hinsert
    exact ⟨p, before, after, hl.substituted hi hpa hca hinserted hremoved hbetween hl'⟩
  · subst hca
    obtain rfl := eq_of_insertBefore_self hl hinsert
    exact hremoved

/-- A rule with a rule of two rules in it, and a rule behind. -/
def ofNestedRules : Document :=
  .ofTrees none (Reading.ofText
    "a \x7b b \x7b c \x7b\x7d d \x7b\x7d \x7d \x7d e \x7b\x7d").trees

/-- The innermost rule is rescued from the outermost one, whose place it takes, and the rule
behind moves forward to the place of the rule in the middle. -/
theorem substituted_of_reached_ofNestedRules :
    (ofNestedRules.Reached fun _ => True) ∧
      (∃ d' before after, (replaceWith ⟨2⟩ ⟨4⟩).on ofNestedRules = (.ok (), d') ∧
        Substituted .root ⟨2⟩ ⟨4⟩ before after ofNestedRules d' ∧
        d'.childrenOf .root = [⟨4⟩, ⟨6⟩] ∧ d'.size = 3) ∧
      (∃ d' before after, (replaceWith ⟨3⟩ ⟨6⟩).on ofNestedRules = (.ok (), d') ∧
        Substituted ⟨2⟩ ⟨3⟩ ⟨6⟩ before after ofNestedRules d' ∧
        d'.childrenOf .root = [⟨2⟩] ∧ d'.childrenOf ⟨2⟩ = [⟨6⟩]) ∧
      ¬ ∃ d', (replaceWith ⟨3⟩ ⟨2⟩).on ofNestedRules = (.ok (), d') := by
  have hreached : ofNestedRules.Reached fun _ => True := .read none _
  have hparents : ofNestedRules.parent? ⟨2⟩ = some .root ∧ ofNestedRules.parent? ⟨3⟩ = some ⟨2⟩ := by
    decide +kernel
  have hrescued : ((replaceWith ⟨2⟩ ⟨4⟩).on ofNestedRules).1 = .ok () := by decide +kernel
  have hmoved : ((replaceWith ⟨3⟩ ⟨6⟩).on ofNestedRules).1 = .ok () := by decide +kernel
  obtain ⟨p, before, after, hsub⟩ :=
    ((substituted_of_reached hreached ⟨2⟩ ⟨4⟩).2 _ (Prod.ext hrescued rfl)).1 (by decide)
  obtain ⟨q, before', after', hsub'⟩ :=
    ((substituted_of_reached hreached ⟨3⟩ ⟨6⟩).2 _ (Prod.ext hmoved rfl)).1 (by decide)
  obtain rfl : p = .root := Option.some.inj (hsub.parent?_anchor.symm.trans hparents.1)
  obtain rfl : q = ⟨2⟩ := Option.some.inj (hsub'.parent?_anchor.symm.trans hparents.2)
  refine ⟨hreached,
    ⟨_, before, after, Prod.ext hrescued rfl, hsub, by decide +kernel, by decide +kernel⟩,
    ⟨_, before', after', Prod.ext hmoved rfl, hsub', by decide +kernel, by decide +kernel⟩,
    fun hdone => ?_⟩
  obtain ⟨r, hr, hi⟩ := (substituted_of_reached hreached ⟨3⟩ ⟨2⟩).1.mp hdone
  obtain rfl : r = ⟨2⟩ := Option.some.inj (hr.symm.trans hparents.2)
  exact hi.ne rfl

/-- A rule and nothing else. -/
def ofLoneRule : Document :=
  .ofTrees none (Reading.ofText "a \x7b\x7d").trees

/-- A rule that is to replace itself is gone afterwards, although the replacement is done. -/
theorem substituted_of_reached_ne :
    (ofLoneRule.Reached fun _ => True) ∧
      ¬ ∀ d', (replaceWith ⟨2⟩ ⟨2⟩).on ofLoneRule = (.ok (), d') → d'.contains ⟨2⟩ := by
  have hdone : ((replaceWith ⟨2⟩ ⟨2⟩).on ofLoneRule).1 = .ok () := by decide +kernel
  have hgone : ((replaceWith ⟨2⟩ ⟨2⟩).on ofLoneRule).2.contains ⟨2⟩ = false := by
    decide +kernel
  refine ⟨.read none _, fun hclaim => ?_⟩
  rw [hclaim _ (Prod.ext hdone rfl)] at hgone
  cases hgone

end Edit

end Typography
