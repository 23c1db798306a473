import Typography.Proofs.Document.Refusal

/-!
# Removal frees a branch

A removal walks the nodes below a node, takes the node away from its parent and empties the
slots one by one. `Document.Removed` says what this comes to: what the node is over is gone,
each of these nodes once, and of what is left only the list of the parent has changed. The
number of nodes is counted by their identifiers, `Document.live`, so that it is known from
which nodes there are.

An emptied slot is never filled again, so an identifier that was freed stays invalid through
whatever follows, `Document.Spent`.
-/

namespace Typography

namespace Document

/-- The identifiers of the nodes that there are. -/
def live (d : Document) : List NodeId :=
  ((List.range d.slots.size).map NodeId.mk).filter d.contains

/-- The identifier names no node and never will: its slot is there and is empty. -/
structure Spent (x : NodeId) (d : Document) : Prop where
  linked : d.Linked
  serial_lt : x.serial < d.slots.size
  get?_eq_none : d.get? x = none

/-- The document `d'` has come of `d` by removing `id` with the nodes below it. -/
structure Removed (id : NodeId) (d d' : Document) : Prop where
  contains_iff : ∀ x, d'.contains x ↔ d.contains x ∧ ¬ d.Over id x
  /-- The number of nodes falls by the number of those that are gone. -/
  size_add_length : ∃ gone : List NodeId,
    gone.Nodup ∧ (∀ x, x ∈ gone ↔ d.Over id x) ∧ d'.size + gone.length = d.size
  get?_parent : ∀ p, d.parent? id = some p →
    d'.get? p = (d.get? p).map fun node =>
      { node with children := node.children.filter (· ≠ id) }
  get?_other : ∀ x, ¬ d.Over id x → d.parent? id ≠ some x → d'.get? x = d.get? x
  /-- The nodes that are left refer to one another only. -/
  contains_link : ∀ x node, d'.get? x = some node →
    (∀ p, node.parent = some p → d'.contains p) ∧ ∀ c ∈ node.children, d'.contains c
  /-- Nothing brings back an identifier that was freed. -/
  contains_foldl : ∀ x, d.Over id x → ∀ operations : List Operation,
    (operations.foldl Operation.apply d').contains x = false
  file_eq : d'.file = d.file

variable {d d' : Document}

/-! ### The number of nodes -/

theorem mem_live_iff {x : NodeId} : x ∈ d.live ↔ d.contains x := by
  rw [live, List.mem_filter, List.mem_map]
  constructor
  · exact And.right
  · intro hx
    exact ⟨⟨x.serial, List.mem_range.mpr (serial_lt_of_contains hx), rfl⟩, hx⟩

theorem nodup_live (d : Document) : d.live.Nodup := by
  refine (List.Nodup.map ?_ List.nodup_range).filter _
  intro m n hmn
  exact congrArg NodeId.serial hmn

theorem length_live (d : Document) : d.live.length = d.size := by
  have hslots : d.slots.toList = (List.range d.slots.size).map fun n => d.slots[n]?.join := by
    apply List.ext_getElem
    · simp
    · intro n hn _
      simp [Array.getElem?_eq_getElem (Array.length_toList ▸ hn)]
  rw [live, ← List.countP_eq_length_filter, List.countP_map, size, ← Array.countP_toList,
    hslots, List.countP_map]
  rfl

/-- A document that has lost some nodes is smaller by their number. -/
theorem size_add_length_of_contains {gone : List NodeId} (hnodup : gone.Nodup)
    (hlive : ∀ x ∈ gone, d.contains x)
    (hcontains : ∀ x, d'.contains x ↔ d.contains x ∧ x ∉ gone) :
    d'.size + gone.length = d.size := by
  have hdisjoint : (d'.live ++ gone).Nodup := by
    rw [List.nodup_append]
    refine ⟨nodup_live d', hnodup, ?_⟩
    rintro x hx y hy rfl
    exact ((hcontains x).mp (mem_live_iff.mp hx)).2 hy
  have hperm : (d'.live ++ gone).Perm d.live := by
    rw [List.perm_ext_iff_of_nodup hdisjoint (nodup_live d)]
    intro x
    rw [List.mem_append, mem_live_iff, mem_live_iff, hcontains]
    by_cases hx : x ∈ gone
    · simp [hx, hlive x hx]
    · simp [hx]
  rw [← length_live d, ← hperm.length_eq, List.length_append, length_live]

/-! ### Identifiers that were freed -/

namespace Spent

variable {x : NodeId}

theorem contains_eq_false (h : Spent x d) : d.contains x = false := by
  rw [contains, h.get?_eq_none]
  rfl

theorem kept (x : NodeId) : Edit.Kept (Spent x) where
  linked _ h := h.linked
  push d kind h := by
    have hne : x ≠ d.nextId := by
      rintro rfl
      exact Nat.lt_irrefl _ h.serial_lt
    refine ⟨h.linked.push kind, ?_, by rw [get?_push, if_neg hne, h.get?_eq_none]⟩
    exact h.serial_lt.trans_le (by simp)
  setSpan d id span h :=
    ⟨h.linked.modify id (fun _ => rfl) fun _ => rfl, h.serial_lt.trans_eq (by simp),
      by simp [get?_modify, h.get?_eq_none]⟩
  move d p index c h hi hindex :=
    ⟨h.linked.move hi hindex, h.serial_lt.trans_eq (by simp),
      by rw [h.linked.get?_move, h.get?_eq_none, Option.map_none]⟩
  prune d id kind span children parent h hroot hs :=
    ⟨h.linked.prune hs hroot, h.serial_lt.trans_eq (by simp),
      by rw [h.linked.get?_prune id kind span, h.get?_eq_none, Option.map_none, ite_self]⟩

/-- No operation fills a slot that was emptied. -/
theorem apply (h : Spent x d) (operation : Operation) : Spent x (operation.apply d) := by
  cases operation with
  | setKind id kind =>
    refine (Edit.keeps_ask _).bind (fun _ d h => ?_) d h
    exact ⟨h.linked.modify id (fun _ => rfl) fun _ => rfl, h.serial_lt.trans_eq (by simp),
      by simp [get?_modify, h.get?_eq_none]⟩
  | _ => exact keeps_apply (kept x) h trivial

theorem foldl (h : Spent x d) (operations : List Operation) :
    Spent x (operations.foldl Operation.apply d) := by
  induction operations generalizing d with
  | nil => exact h
  | cons operation operations ih => exact ih (h.apply operation)

end Spent

/-! ### What a removal comes to -/

section

variable {id : NodeId} {kind : NodeKind} {span : Option Span} {children : List Branch}
  {parent : Option NodeId}

theorem Linked.contains_prune_iff (h : d.Linked) {x : NodeId} :
    (d.prune id (Branch.idsOfAll children)).contains x ↔
      d.contains x ∧ x ∉ (Branch.node id kind span children).ids := by
  rw [contains, contains, h.get?_prune id kind span]
  by_cases hx : x ∈ (Branch.node id kind span children).ids <;> simp [hx]

/-- A removal spends the identifiers of the branch. -/
theorem Linked.spent_prune (h : d.Linked) (hb : (Branch.node id kind span children).Stands d parent)
    (hroot : id ≠ .root) {x : NodeId} (hx : x ∈ (Branch.node id kind span children).ids) :
    Spent x (d.prune id (Branch.idsOfAll children)) where
  linked := h.prune hb hroot
  serial_lt := (serial_lt_of_contains (hb.contains x hx)).trans_eq (size_slots_prune ..).symm
  get?_eq_none := by rw [h.get?_prune id kind span, if_pos hx]

theorem Linked.removed_prune (h : d.Linked)
    (hb : (Branch.node id kind span children).Stands d parent) (hroot : id ≠ .root) :
    Removed id d (d.prune id (Branch.idsOfAll children)) := by
  have hmem : ∀ x, x ∈ (Branch.node id kind span children).ids ↔ d.Over id x := fun x =>
    h.mem_ids_iff hb
  have hget := h.get?_prune id kind span children
  have hpruned := h.prune hb hroot
  have hcontains : ∀ x, (d.prune id (Branch.idsOfAll children)).contains x ↔
      d.contains x ∧ x ∉ (Branch.node id kind span children).ids := fun _ => h.contains_prune_iff
  refine ⟨fun x => ?_, ⟨_, h.nodup_ids hb, hmem, ?_⟩, fun p hp => ?_, fun x hx hp => ?_,
    fun x node hn => ⟨fun p hp => ?_, fun c hc => ?_⟩, fun x hx operations => ?_, file_prune ..⟩
  · rw [hcontains, hmem]
  · exact size_add_length_of_contains (h.nodup_ids hb) hb.contains hcontains
  · rw [hget, if_neg]
    rw [hmem]
    exact h.not_over_of_above hp
  · rw [hget, if_neg (fun hmem' => hx ((hmem x).mp hmem'))]
    cases hn : d.get? x with
    | none => rfl
    | some node => rw [Option.map_some, h.filter_children hn hp]
  · exact hpruned.contains_parent ((parent?_of_get? hn).trans hp)
  · rw [← childrenOf_of_get? hn] at hc
    exact hpruned.contains_child hc
  · exact ((h.spent_prune hb hroot ((hmem x).mpr hx)).foldl operations).contains_eq_false

end

end Document

namespace Edit

open Document

variable {d : Document}

theorem removed_of_remove (h : d.Linked) {id : NodeId} {d' : Document}
    (hdone : (remove id).on d = (.ok (), d')) : Removed id d d' := by
  obtain ⟨kind, span, children, parent, hroot, hs, rfl⟩ := eq_prune_of_remove h hdone
  exact h.removed_prune hs hroot

theorem remove_eq_ok_iff (h : d.Linked) {id : NodeId} :
    (∃ d', (remove id).on d = (.ok (), d')) ↔ d.contains id ∧ id ≠ .root := by
  constructor
  · rintro ⟨d', hdone⟩
    obtain ⟨kind, span, children, parent, hroot, hs, -⟩ := eq_prune_of_remove h hdone
    exact ⟨contains_of_get? hs.1, hroot⟩
  · rintro ⟨hlive, hroot⟩
    exact exists_remove_on h hlive hroot

/-- In every document a removal is done exactly when the node is there and is not the root, and
then the node and those below it are gone for good, and nothing else is. -/
theorem removed_of_reached (h : d.Reached fun _ => True) (id : NodeId) :
    ((∃ d', (remove id).on d = (.ok (), d')) ↔ d.contains id ∧ id ≠ .root) ∧
      ∀ d', (remove id).on d = (.ok (), d') → Removed id d d' :=
  ⟨remove_eq_ok_iff h.linked, fun _ => removed_of_remove h.linked⟩

/-- A rule that was moved to the bottom of another one, and a new rule that stands alone. -/
def ofMovedRule : Document :=
  [.append ⟨4⟩ ⟨6⟩, .create (.rule "f")].foldl Operation.apply (.ofTrees none (Reading.ofText
    "a \x7b b \x7b c \x7b\x7d \x7d d \x7b\x7d \x7d e \x7b\x7d").trees)

/-- The moved rule goes with the rule that it was moved below; the rule alone can be removed,
the root cannot. -/
theorem removed_of_reached_ofMovedRule :
    (ofMovedRule.Reached fun _ => True) ∧ ofMovedRule.size = 7 ∧
      (∃ d', (remove ⟨3⟩).on ofMovedRule = (.ok (), d') ∧ Removed ⟨3⟩ ofMovedRule d' ∧
        d'.size = 4 ∧ d'.childrenOf ⟨2⟩ = [⟨5⟩] ∧
        ([.create (.comment "g"), .append .root ⟨6⟩].foldl Operation.apply d').contains ⟨6⟩ =
          false) ∧
      (∃ d', (remove ⟨7⟩).on ofMovedRule = (.ok (), d') ∧ Removed ⟨7⟩ ofMovedRule d') ∧
      ¬ ∃ d', (remove .root).on ofMovedRule = (.ok (), d') := by
  have hreached : ofMovedRule.Reached fun _ => True :=
    (Reached.read none "a \x7b b \x7b c \x7b\x7d \x7d d \x7b\x7d \x7d e \x7b\x7d").foldl
      fun _ _ => trivial
  have hdone : ((remove ⟨3⟩).on ofMovedRule).1 = .ok () := by decide +kernel
  have hremoved := (removed_of_reached hreached ⟨3⟩).2 _ (Prod.ext hdone rfl)
  obtain ⟨d', halone⟩ := (removed_of_reached hreached ⟨7⟩).1.mpr (by decide +kernel)
  have hover : ofMovedRule.Over ⟨3⟩ ⟨6⟩ := by
    have habove : ofMovedRule.Above ⟨3⟩ ⟨4⟩ ∧ ofMovedRule.Above ⟨4⟩ ⟨6⟩ := by
      unfold Above
      decide +kernel
    exact (Relation.ReflTransGen.single habove.1).tail habove.2
  refine ⟨hreached, by decide +kernel,
    ⟨_, Prod.ext hdone rfl, hremoved, by decide +kernel, by decide +kernel,
      hremoved.contains_foldl ⟨6⟩ hover _⟩,
    ⟨d', halone, (removed_of_reached hreached ⟨7⟩).2 d' halone⟩, fun hroot => ?_⟩
  exact ((removed_of_reached hreached .root).1.mp hroot).2 rfl

end Edit

end Typography
