import Typography.Proofs.Document.Forest

/-!
# Refused edits

An edit on the tree goes in steps, of which each may be refused: a node is taken away
before its new place is looked up, and a replacement is an insertion with a removal behind
it. In a forest no step is refused once the first change was made, so a refused edit has
changed nothing, `Edit.isAtomic_of_reached`. That the removal behind an insertion is done is
`Edit.remove_on_of_insertBefore`.
-/

namespace Typography.Edit

open Document

/-- In this document the edit is done as a whole, or refused without any change. -/
def IsAtomic {α : Type} (e : Edit α) (d : Document) : Prop :=
  ∀ cause, (e.on d).1 = .error cause → (e.on d).2 = d

variable {d : Document}

/-- An edit whose second step is never refused is atomic if the first one is. -/
theorem IsAtomic.bind {α β : Type} {e : Edit α} {f : α → Edit β} (he : e.IsAtomic d)
    (hf : ∀ a d', e.on d = (.ok a, d') → ∃ b d'', (f a).on d' = (.ok b, d'')) :
    (e >>= f).IsAtomic d := by
  intro cause hrefused
  rw [on_bind] at hrefused ⊢
  obtain ⟨result, d', hon⟩ : ∃ result d', e.on d = (result, d') := ⟨_, _, rfl⟩
  cases result with
  | error cause' =>
    have hunchanged := he cause' (congrArg Prod.fst hon)
    rw [hon] at hunchanged ⊢
    exact hunchanged
  | ok a =>
    obtain ⟨b, d'', hdone⟩ := hf a d' hon
    rw [hon] at hrefused
    simp only [hdone] at hrefused
    cases hrefused

theorem isAtomic_ask {α : Type} (f : Document → Except TreeError α) : (ask f).IsAtomic d :=
  fun _ _ => rfl

/-- A question with a change behind it is refused at the question. -/
theorem isAtomic_ask_change {α : Type} (f : Document → Except TreeError α)
    (g : Document → Document) : (ask f >>= fun _ => change g).IsAtomic d :=
  (isAtomic_ask f).bind fun _ d' _ => ⟨(), g d', rfl⟩

theorem isAtomic_append (h : d.Linked) (p c : NodeId) : (append p c).IsAtomic d := by
  intro cause hrefused
  rw [append_on h] at hrefused ⊢
  cases hcheck : d.checkInsertable p c with
  | error _ => rfl
  | ok _ =>
    rw [hcheck] at hrefused
    cases hrefused

theorem isAtomic_insertBefore (h : d.Linked) (p a c : NodeId) :
    (insertBefore p a c).IsAtomic d := by
  intro cause hrefused
  rw [insertBefore_on h] at hrefused ⊢
  cases hcheck : d.checkInsertable p c with
  | error _ => rfl
  | ok _ =>
    simp only [hcheck] at hrefused
    by_cases ha : a ∈ d.childrenOf p
    · by_cases hca : c = a
      · rw [if_pos ha, if_pos hca] at hrefused
        cases hrefused
      · rw [if_pos ha, if_neg hca] at hrefused
        cases hrefused
    · exact congrArg Prod.snd (if_neg ha)

/-- A live node below the root is removed, whatever stands below it. -/
theorem exists_remove_on (h : d.Linked) {id : NodeId} (hid : d.contains id) (hroot : id ≠ .root) :
    ∃ d', (remove id).on d = (.ok (), d') := by
  obtain ⟨kind, span, children, parent, hs⟩ := h.exists_stands hid
  exact ⟨_, remove_on h hroot hs⟩

theorem isAtomic_remove (h : d.Linked) (id : NodeId) : (remove id).IsAtomic d := by
  intro cause hrefused
  by_cases hroot : id = .root
  · rw [hroot, remove_on_root]
  · cases hid : d.contains id with
    | false => rw [remove_on_stale hroot hid]
    | true =>
      obtain ⟨d', hdone⟩ := exists_remove_on h hid hroot
      rw [hdone] at hrefused
      cases hrefused

theorem contains_of_insertBefore (h : d.Linked) {p a c : NodeId} {d' : Document}
    (hdone : (insertBefore p a c).on d = (.ok (), d')) (id : NodeId) :
    d'.contains id = d.contains id := by
  rcases eq_move_of_insertBefore h hdone with rfl | ⟨index, -, -, rfl⟩
  · rfl
  · exact h.contains_move p index c id

/-- When a node was put before a child, the child can be removed, also if the node was below
it, is the child itself, or was its sibling. -/
theorem remove_on_of_insertBefore (h : d.Linked) {p a c : NodeId} (hp : d.parent? a = some p)
    {d' : Document} (hdone : (insertBefore p a c).on d = (.ok (), d')) :
    ∃ d'', (remove a).on d' = (.ok (), d'') := by
  have hd' : d'.Linked := by
    have := kept_linked.keeps_insertBefore p a c d h
    rwa [hdone] at this
  refine exists_remove_on hd' ?_ (h.ne_root_of_parent? hp)
  rw [contains_of_insertBefore h hdone]
  exact contains_of_parent? hp

theorem isAtomic_replaceWith (h : d.Linked) (a c : NodeId) : (replaceWith a c).IsAtomic d := by
  unfold replaceWith
  cases hn : d.get? a with
  | none =>
    intro cause _
    rw [on_bind, on_ask, find_of_not_contains (by simp [contains, hn])]
  | some node =>
    intro cause
    rw [on_bind_of_ok (by rw [on_ask, find_of_get? hn])]
    cases hp : node.parent with
    | none => exact fun _ => rfl
    | some p =>
      -- the anchor has a parent, so it is not the root and is live behind the insertion
      refine (isAtomic_insertBefore h p a c).bind (fun _ d' hdone => ?_) cause
      exact ⟨(), remove_on_of_insertBefore h ((parent?_of_get? hn).trans hp) hdone⟩

/-- In every document, with any identifiers, an edit that is refused has changed nothing, and
the removal that ends a replacement is never refused behind its insertion. -/
theorem isAtomic_of_reached (h : d.Reached fun _ => True) :
    (∀ p c, (append p c).IsAtomic d) ∧
      (∀ p a c, (insertBefore p a c).IsAtomic d) ∧
      (∀ a c, (replaceWith a c).IsAtomic d) ∧
      (∀ id, (remove id).IsAtomic d) ∧
      (∀ id span, (setSpan id span).IsAtomic d) ∧
      (∀ id kind, (setKind id kind).IsAtomic d) ∧
      ∀ p a c d', d.parent? a = some p → (insertBefore p a c).on d = (.ok (), d') →
        ∃ d'', (remove a).on d' = (.ok (), d'') := by
  have hl := h.linked
  refine ⟨isAtomic_append hl, isAtomic_insertBefore hl, isAtomic_replaceWith hl,
    isAtomic_remove hl, ?_, ?_, ?_⟩
  · exact fun id span => isAtomic_ask_change _ _
  · exact fun id kind => isAtomic_ask_change _ _
  · exact fun p a c d' hp hdone => remove_on_of_insertBefore hl hp hdone

/-- A rule with a declaration, which has become a rule with a comment of its own, and a rule
that was removed. -/
def ofStaleRule : Document :=
  [.setKind ⟨3⟩ (.rule "b"), .create (.comment "c"), .append ⟨3⟩ ⟨4⟩, .create (.rule "d"),
    .append .root ⟨5⟩, .remove ⟨5⟩].foldl Operation.apply
      (.ofTrees none (Reading.ofText "a \x7b b: c \x7d").trees)

/-- Refused are a node that would come below itself, an anchor that is no child, a
replacement by what is above, the root and a stale identifier; a comment takes the place of
the node that is above it. -/
theorem isAtomic_of_reached_ofStaleRule :
    (ofStaleRule.Reached fun _ => True) ∧
      (append ⟨3⟩ ⟨2⟩).on ofStaleRule = (.error .circularParentage, ofStaleRule) ∧
      (insertBefore .root ⟨3⟩ ⟨4⟩).on ofStaleRule = (.error .notAChild, ofStaleRule) ∧
      (replaceWith ⟨3⟩ ⟨2⟩).on ofStaleRule = (.error .circularParentage, ofStaleRule) ∧
      (remove .root).on ofStaleRule = (.error .rootNode, ofStaleRule) ∧
      (setSpan ⟨5⟩ none).on ofStaleRule = (.error .unknownNode, ofStaleRule) ∧
      (setKind ⟨5⟩ .root).on ofStaleRule = (.error .unknownNode, ofStaleRule) ∧
      ∃ d' d'', (insertBefore ⟨2⟩ ⟨3⟩ ⟨4⟩).on ofStaleRule = (.ok (), d') ∧
        (remove ⟨3⟩).on d' = (.ok (), d'') := by
  have hreached : ofStaleRule.Reached fun _ => True :=
    (Reached.read none "a \x7b b: c \x7d").foldl fun _ _ => trivial
  obtain ⟨happend, hinsert, hreplace, hremove, hspan, hkind, hbehind⟩ :=
    isAtomic_of_reached hreached
  have hbelow : ((append ⟨3⟩ ⟨2⟩).on ofStaleRule).1 = .error .circularParentage := by
    decide +kernel
  have hnoChild : ((insertBefore .root ⟨3⟩ ⟨4⟩).on ofStaleRule).1 = .error .notAChild := by
    decide +kernel
  have habove : ((replaceWith ⟨3⟩ ⟨2⟩).on ofStaleRule).1 = .error .circularParentage := by
    decide +kernel
  have hroot : ((remove .root).on ofStaleRule).1 = .error .rootNode := rfl
  have hstale : ((setSpan ⟨5⟩ none).on ofStaleRule).1 = .error .unknownNode := by decide +kernel
  have hstale' : ((setKind ⟨5⟩ .root).on ofStaleRule).1 = .error .unknownNode := by
    decide +kernel
  have hplaced : ((insertBefore ⟨2⟩ ⟨3⟩ ⟨4⟩).on ofStaleRule).1 = .ok () := by decide +kernel
  obtain ⟨d'', hremoved⟩ :=
    hbehind ⟨2⟩ ⟨3⟩ ⟨4⟩ _ (by decide +kernel) (Prod.ext hplaced rfl)
  exact ⟨hreached, Prod.ext hbelow (happend _ _ _ hbelow),
    Prod.ext hnoChild (hinsert _ _ _ _ hnoChild), Prod.ext habove (hreplace _ _ _ habove),
    Prod.ext hroot (hremove _ _ hroot), Prod.ext hstale (hspan _ _ _ hstale),
    Prod.ext hstale' (hkind _ _ _ hstale'), _, d'', Prod.ext hplaced rfl, hremoved⟩

end Typography.Edit
