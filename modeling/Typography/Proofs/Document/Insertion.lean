import Typography.Proofs.Document.Refusal

/-!
# Insertion as an edit of lists

Appending and inserting before a child are one move: a node is taken out of the children of
its former parent and put at a place among the children of its new one, which may be the same
list. `Document.Inserted` says what the move changes, by the list around the place, and that
nothing else changes; an index, which shifts when the node leaves the same list, does not
appear in it. `Edit.inserted_of_reached` says when an insertion is done and where the node is
then.
-/

namespace Typography

namespace Document

/-- The document `d'` has come of `d` by putting `c` between `before` and `after` below `p`,
away from where it was. -/
structure Inserted (p c : NodeId) (before after : List NodeId) (d d' : Document) : Prop where
  /-- Around the new place are the children that there were, without `c`. -/
  children_eq : (d.childrenOf p).filter (· ≠ c) = before ++ after
  get?_parent : d'.get? p = (d.get? p).map fun node =>
    { node with kind := node.kind.withBlock, children := before ++ c :: after }
  get?_child : d'.get? c = (d.get? c).map fun node => { node with parent := some p }
  get?_former : ∀ q, d.parent? c = some q → q ≠ p →
    d'.get? q = (d.get? q).map fun node =>
      { node with children := node.children.filter (· ≠ c) }
  get?_other : ∀ x, x ≠ p → x ≠ c → d.parent? c ≠ some x → d'.get? x = d.get? x
  contains_eq : ∀ x, d'.contains x = d.contains x
  file_eq : d'.file = d.file

variable {d : Document}

theorem Insertable.ne {p c : NodeId} (hi : d.Insertable p c) : p ≠ c := by
  rintro rfl
  exact hi.not_over Relation.ReflTransGen.refl

/-- What can be put below a node is not over the children of the node, unless it is one. -/
theorem Insertable.not_over_child {p c a : NodeId} (hi : d.Insertable p c)
    (hpa : d.parent? a = some p) (hca : c ≠ a) : ¬ d.Over c a := by
  intro ho
  obtain ⟨q, hcq, hqa⟩ := exists_above_of_over ho hca.symm
  obtain rfl : q = p := Option.some.inj (hqa.symm.trans hpa)
  exact hi.not_over hcq

/-- A move to the place behind `before` is an insertion there. -/
theorem Linked.inserted_move (h : d.Linked) {p c : NodeId} (hi : d.Insertable p c)
    {before after : List NodeId} (hchildren : (d.childrenOf p).filter (· ≠ c) = before ++ after) :
    Inserted p c before after d (d.move p before.length c) where
  children_eq := hchildren
  get?_parent := by
    obtain ⟨node, hn⟩ := exists_get?_of_contains hi.contains_parent
    rw [childrenOf_of_get? hn] at hchildren
    rw [h.get?_move, hn, Option.map_some, Option.map_some, hchildren, insertIdx_length_append]
    simp only [if_true, if_neg hi.ne]
  get?_child := by
    obtain ⟨node, hn⟩ := exists_get?_of_contains hi.contains
    have hself : d.parent? c ≠ some c := fun hc => h.ne_of_above hc rfl
    rw [h.get?_move, hn, Option.map_some, Option.map_some, h.filter_children hn hself]
    simp only [if_true, if_neg hi.ne.symm]
  get?_former q hq hne := by
    have hqc : q ≠ c := h.ne_of_above hq
    rw [h.get?_move]
    simp only [if_neg hne, if_neg hqc]
  get?_other x hxp hxc hx := by
    rw [h.get?_move]
    cases hn : d.get? x with
    | none => rfl
    | some node => simp only [Option.map_some, if_neg hxp, if_neg hxc, h.filter_children hn hx]
  contains_eq := h.contains_move p _ c
  file_eq := file_move ..

namespace Inserted

variable {d' : Document} {p c : NodeId} {before after : List NodeId}

theorem parent?_child (h : Inserted p c before after d d') (hc : d.contains c) :
    d'.parent? c = some p := by
  obtain ⟨node, hn⟩ := exists_get?_of_contains hc
  rw [parent?, h.get?_child, hn]
  rfl

theorem childrenOf_parent (h : Inserted p c before after d d') (hp : d.contains p) :
    d'.childrenOf p = before ++ c :: after := by
  obtain ⟨node, hn⟩ := exists_get?_of_contains hp
  rw [childrenOf, h.get?_parent, hn]
  rfl

/-- The parents of the other nodes stay. -/
theorem parent?_of_ne (h : Inserted p c before after d d') {x : NodeId} (hx : x ≠ c) :
    d'.parent? x = d.parent? x := by
  by_cases hp : x = p
  · rw [hp, parent?, parent?, h.get?_parent]
    cases d.get? p <;> rfl
  · by_cases hq : d.parent? c = some x
    · rw [parent?, parent?, h.get?_former x hq hp]
      cases d.get? x <;> rfl
    · rw [parent?, parent?, h.get?_other x hp hx hq]

end Inserted

end Document

namespace Edit

open Document

variable {d : Document}

theorem append_eq_ok_iff (h : d.Linked) {p c : NodeId} :
    (∃ d', (append p c).on d = (.ok (), d')) ↔ d.Insertable p c := by
  constructor
  · rintro ⟨d', hdone⟩
    obtain ⟨index, hi, -, -⟩ := eq_move_of_append h hdone
    exact hi
  · intro hi
    rw [append_on h, h.checkInsertable_eq_ok hi]
    exact ⟨_, rfl⟩

/-- A node is appended behind the children that there were, without the node. -/
theorem inserted_of_append (h : d.Linked) {p c : NodeId} {d' : Document}
    (hdone : (append p c).on d = (.ok (), d')) :
    Inserted p c ((d.childrenOf p).filter (· ≠ c)) [] d d' := by
  have hi := (append_eq_ok_iff h).mp ⟨d', hdone⟩
  rw [append_on h, h.checkInsertable_eq_ok hi, h.childrenOf_detach] at hdone
  cases hdone
  exact h.inserted_move hi (List.append_nil _).symm

theorem insertBefore_eq_ok_iff (h : d.Linked) {p a c : NodeId} :
    (∃ d', (insertBefore p a c).on d = (.ok (), d')) ↔
      d.Insertable p c ∧ a ∈ d.childrenOf p := by
  rw [insertBefore_on h]
  constructor
  · rintro ⟨d', hdone⟩
    cases hcheck : d.checkInsertable p c with
    | error _ =>
      rw [hcheck] at hdone
      cases hdone
    | ok _ =>
      refine ⟨h.insertable_of_checkInsertable hcheck, ?_⟩
      by_contra ha
      simp only [hcheck, if_neg ha] at hdone
      cases hdone
  · rintro ⟨hi, ha⟩
    rw [h.checkInsertable_eq_ok hi]
    by_cases hca : c = a
    · simp only [if_pos ha, if_pos hca]
      exact ⟨d, rfl⟩
    · simp only [if_pos ha, if_neg hca]
      exact ⟨_, rfl⟩

/-- Nothing is done to a node that is to stand before itself. -/
theorem eq_of_insertBefore_self (h : d.Linked) {p a : NodeId} {d' : Document}
    (hdone : (insertBefore p a a).on d = (.ok (), d')) : d' = d := by
  obtain ⟨hi, ha⟩ := (insertBefore_eq_ok_iff h).mp ⟨d', hdone⟩
  rw [insertBefore_on h, h.checkInsertable_eq_ok hi] at hdone
  simp only [if_pos ha, if_true] at hdone
  cases hdone
  rfl

/-- Another node comes to stand directly before the child, wherever it was. -/
theorem exists_inserted_of_insertBefore (h : d.Linked) {p a c : NodeId} (hca : c ≠ a)
    {d' : Document} (hdone : (insertBefore p a c).on d = (.ok (), d')) :
    ∃ before after, Inserted p c before (a :: after) d d' := by
  obtain ⟨hi, ha⟩ := (insertBefore_eq_ok_iff h).mp ⟨d', hdone⟩
  have hmem : a ∈ (d.childrenOf p).filter (· ≠ c) := by
    rw [List.mem_filter]
    exact ⟨ha, by simpa using hca.symm⟩
  obtain ⟨before, after, hchildren⟩ := List.append_of_mem hmem
  -- the children are a list without repetition, so the anchor is found behind `before`
  have hnodup : (before ++ a :: after).Nodup := hchildren ▸ (h.nodup_childrenOf p).filter _
  have hbefore : a ∉ before := fun hmem =>
    (List.nodup_append.mp hnodup).2.2 a hmem a List.mem_cons_self rfl
  rw [insertBefore_on h, h.checkInsertable_eq_ok hi, h.childrenOf_detach, hchildren,
    idxOf_append_cons_self hbefore] at hdone
  simp only [if_pos ha, if_neg hca] at hdone
  cases hdone
  exact ⟨before, after, h.inserted_move hi hchildren⟩

/-- In every document an insertion is done exactly when the parent is a node that takes
children, the other one is a node, is not the root and is not over the parent, and the anchor
is a child. Then the node stands at the end or directly before the anchor, or nothing at all
has happened if it is the anchor. -/
theorem inserted_of_reached (h : d.Reached fun _ => True) (p c : NodeId) :
    ((∃ d', (append p c).on d = (.ok (), d')) ↔ d.Insertable p c) ∧
      (∀ d', (append p c).on d = (.ok (), d') →
        Inserted p c ((d.childrenOf p).filter (· ≠ c)) [] d d') ∧
      ∀ a, ((∃ d', (insertBefore p a c).on d = (.ok (), d')) ↔
          d.Insertable p c ∧ a ∈ d.childrenOf p) ∧
        ∀ d', (insertBefore p a c).on d = (.ok (), d') →
          (c = a → d' = d) ∧
            (c ≠ a → ∃ before after, Inserted p c before (a :: after) d d') := by
  have hl := h.linked
  refine ⟨append_eq_ok_iff hl, fun d' => inserted_of_append hl, fun a => ?_⟩
  refine ⟨insertBefore_eq_ok_iff hl, fun d' hdone => ⟨?_, fun hca => ?_⟩⟩
  · rintro rfl
    exact eq_of_insertBefore_self hl hdone
  · exact exists_inserted_of_insertBefore hl hca hdone

/-- A rule with three rules in it, and an at-rule without a block. -/
def ofBlocklessAtRule : Document :=
  .ofTrees none (Reading.ofText "a \x7b b \x7b\x7d c \x7b\x7d d \x7b\x7d \x7d @e;").trees

/-- The first rule inside goes into the at-rule, which gets a block, or before the last one in
the same rule, or stays before itself; the outer rule goes nowhere below itself. -/
theorem inserted_of_reached_ofBlocklessAtRule :
    (ofBlocklessAtRule.Reached fun _ => True) ∧
      ofBlocklessAtRule.childrenOf ⟨2⟩ = [⟨3⟩, ⟨4⟩, ⟨5⟩] ∧
      (∃ d', (append ⟨6⟩ ⟨3⟩).on ofBlocklessAtRule = (.ok (), d') ∧
        Inserted ⟨6⟩ ⟨3⟩ [] [] ofBlocklessAtRule d' ∧
        (d'.get? ⟨6⟩).map Node.kind = some (.atRule "e" "" true) ∧
        d'.childrenOf ⟨2⟩ = [⟨4⟩, ⟨5⟩]) ∧
      (∃ d' before after, (insertBefore ⟨2⟩ ⟨5⟩ ⟨3⟩).on ofBlocklessAtRule = (.ok (), d') ∧
        Inserted ⟨2⟩ ⟨3⟩ before (⟨5⟩ :: after) ofBlocklessAtRule d' ∧
        d'.childrenOf ⟨2⟩ = [⟨4⟩, ⟨3⟩, ⟨5⟩]) ∧
      (insertBefore ⟨2⟩ ⟨3⟩ ⟨3⟩).on ofBlocklessAtRule = (.ok (), ofBlocklessAtRule) ∧
      ¬ ofBlocklessAtRule.Insertable ⟨4⟩ ⟨2⟩ := by
  have hreached : ofBlocklessAtRule.Reached fun _ => True := .read none _
  have happended : ((append ⟨6⟩ ⟨3⟩).on ofBlocklessAtRule).1 = .ok () := by decide +kernel
  have hplaced : ((insertBefore ⟨2⟩ ⟨5⟩ ⟨3⟩).on ofBlocklessAtRule).1 = .ok () := by
    decide +kernel
  have hstays : ((insertBefore ⟨2⟩ ⟨3⟩ ⟨3⟩).on ofBlocklessAtRule).1 = .ok () := by
    decide +kernel
  have hbelow : ((append ⟨4⟩ ⟨2⟩).on ofBlocklessAtRule).1 = .error .circularParentage := by
    decide +kernel
  have hnone : ofBlocklessAtRule.childrenOf ⟨6⟩ = [] := by decide +kernel
  obtain ⟨-, happend, -⟩ := inserted_of_reached hreached ⟨6⟩ ⟨3⟩
  obtain ⟨-, -, hinsert⟩ := inserted_of_reached hreached ⟨2⟩ ⟨3⟩
  have hat := happend _ (Prod.ext happended rfl)
  rw [hnone, List.filter_nil] at hat
  obtain ⟨before, after, hbefore⟩ := ((hinsert ⟨5⟩).2 _ (Prod.ext hplaced rfl)).2 (by decide)
  have hsame := ((hinsert ⟨3⟩).2 _ (Prod.ext hstays rfl)).1 rfl
  refine ⟨hreached, by decide +kernel,
    ⟨_, Prod.ext happended rfl, hat, by decide +kernel, by decide +kernel⟩,
    ⟨_, before, after, Prod.ext hplaced rfl, hbefore, by decide +kernel⟩,
    Prod.ext hstays hsame, fun hi => ?_⟩
  obtain ⟨d', hdone⟩ := (inserted_of_reached hreached ⟨4⟩ ⟨2⟩).1.mpr hi
  rw [hdone] at hbelow
  cases hbelow

end Edit

end Typography
