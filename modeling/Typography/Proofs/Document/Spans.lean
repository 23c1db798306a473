import Typography.Proofs.Expansion.Refinement
import Typography.Proofs.Stylesheet.Begun

/-!
# Spans of a document that was read

What the spans of the trees say, said of the nodes of the document that is made of them:
every node but the root is met by the walk from the root and has a span, the spans are in
order, and each starts at the first character of what it was read from,
`Document.recordsPositions_ofText`.
-/

namespace Typography

namespace Document

/-- The span of a node, if it has one. -/
def span? (d : Document) (x : NodeId) : Option Span :=
  (d.get? x).bind Node.span

/-- The nodes `ids` have spans between two positions, and the spans are in order: they start
one behind the other, those of children are within that of their parent, and one of two
siblings ends before the other starts. -/
structure Spanned (d : Document) (start stop : NodeId → Position) (lo hi : Position)
    (ids : List NodeId) : Prop where
  span_eq : ∀ x ∈ ids, d.span? x = some ⟨start x, some (stop x)⟩
  bounds : ∀ x ∈ ids, lo ≤ start x ∧ start x < stop x ∧ stop x ≤ hi
  start_lt : ids.Pairwise fun x y => start x < start y
  within : ∀ p ∈ ids, ∀ c ∈ d.childrenOf p, start p ≤ start c ∧ stop c ≤ stop p
  stop_le_start : ∀ p ∈ ids, (d.childrenOf p).Pairwise fun x y => stop x ≤ start y

variable {d : Document} {start stop : NodeId → Position} {lo between hi : Position}
  {ids more : List NodeId}

theorem Spanned.nil (d : Document) (start stop : NodeId → Position) (lo hi : Position) :
    d.Spanned start stop lo hi [] where
  span_eq := by simp
  bounds := by simp
  start_lt := .nil
  within := by simp
  stop_le_start := by simp

theorem Spanned.append (h : d.Spanned start stop lo between ids)
    (h' : d.Spanned start stop between hi more) (hlo : lo ≤ between) (hhi : between ≤ hi) :
    d.Spanned start stop lo hi (ids ++ more) where
  span_eq := List.forall_mem_append.mpr ⟨h.span_eq, h'.span_eq⟩
  bounds := by
    refine List.forall_mem_append.mpr ⟨fun x hx => ?_, fun x hx => ?_⟩
    · obtain ⟨hstart, hlt, hstop⟩ := h.bounds x hx
      exact ⟨hstart, hlt, hstop.trans hhi⟩
    · obtain ⟨hstart, hlt, hstop⟩ := h'.bounds x hx
      exact ⟨hlo.trans hstart, hlt, hstop⟩
  start_lt := by
    refine List.pairwise_append.mpr ⟨h.start_lt, h'.start_lt, fun x hx y hy => ?_⟩
    obtain ⟨-, hlt, hstop⟩ := h.bounds x hx
    exact hlt.trans_le (hstop.trans (h'.bounds y hy).1)
  within := List.forall_mem_append.mpr ⟨h.within, h'.within⟩
  stop_le_start := List.forall_mem_append.mpr ⟨h.stop_le_start, h'.stop_le_start⟩

/-- The start of a node that has a span. -/
def startOf (d : Document) (x : NodeId) : Position :=
  ((d.span? x).map Span.start).getD .start

/-- The end of a node whose span has one. -/
def stopOf (d : Document) (x : NodeId) : Position :=
  ((d.span? x).bind Span.stop).getD .start

end Document

namespace Branch

open Document

variable {d : Document} {parent : Option NodeId} {lo hi : Position} {bs : List Branch}

/-- Branches whose trees stand one behind the other have their spans in order if each has, and
one ends before the other starts. -/
theorem spanned_of_each
    (heach : ∀ b ∈ bs, ∀ lo hi, b.Stands d parent → b.tree.Spanned lo hi →
      d.Spanned d.startOf d.stopOf lo hi b.ids)
    (hbs : AllStand d parent bs) (h : Tree.AllSpanned lo hi (trees bs)) :
    d.Spanned d.startOf d.stopOf lo hi (idsOfAll bs) ∧
      (bs.map Branch.id).Pairwise fun x y => d.stopOf x ≤ d.startOf y := by
  induction bs generalizing lo with
  | nil => exact ⟨.nil .., .nil⟩
  | cons b bs ih =>
    obtain ⟨between, hb, hrest⟩ := h
    have hfirst := heach b List.mem_cons_self lo between hbs.1 hb
    obtain ⟨hothers, hpairwise⟩ :=
      ih (fun c hc => heach c (List.mem_cons_of_mem _ hc)) hbs.2 hrest
    refine ⟨hfirst.append hothers (hb.le ..) hrest.le, List.pairwise_cons.mpr ⟨?_, hpairwise⟩⟩
    intro y hy
    obtain ⟨c, hc, rfl⟩ := List.mem_map.mp hy
    have hstop := (hfirst.bounds b.id b.id_mem_ids).2.2
    exact hstop.trans (hothers.bounds c.id (id_mem_idsOfAll hc)).1

/-- The spans of the nodes of a branch are in order if those of its tree are. -/
theorem spanned (b : Branch) : ∀ parent lo hi, b.Stands d parent → b.tree.Spanned lo hi →
    d.Spanned d.startOf d.stopOf lo hi b.ids := by
  induction b using Branch.induction with
  | step id kind span children ih =>
    rintro parent lo hi ⟨hget, hchildren⟩ ⟨start, inner, stop, rfl, hlo, hinner, hbelow, hhi⟩
    obtain ⟨hspanned, hpairwise⟩ := spanned_of_each (fun b hb => ih b hb (some id)) hchildren hbelow
    have hspan : d.span? id = some ⟨start, some stop⟩ := by
      rw [span?, hget, Option.bind_some]
    have hstart : d.startOf id = start := by
      rw [startOf, hspan]
      rfl
    have hstop : d.stopOf id = stop := by
      rw [stopOf, hspan]
      rfl
    have hlt : start < stop := hinner.trans_le hbelow.le
    have hchild : ∀ c ∈ d.childrenOf id, c ∈ idsOfAll children := by
      intro c hc
      rw [childrenOf_of_get? hget] at hc
      exact mem_idsOfAll_of_mem_map hc
    rw [ids]
    -- each field says it of the node itself, and of those below it by `hspanned`
    refine ⟨List.forall_mem_cons.mpr ⟨?_, hspanned.span_eq⟩,
      List.forall_mem_cons.mpr ⟨?_, fun x hx => ?_⟩,
      List.pairwise_cons.mpr ⟨fun x hx => ?_, hspanned.start_lt⟩,
      List.forall_mem_cons.mpr ⟨fun c hc => ?_, hspanned.within⟩,
      List.forall_mem_cons.mpr ⟨?_, hspanned.stop_le_start⟩⟩
    · rw [hspan, hstart, hstop]
    · rw [hstart, hstop]
      exact ⟨hlo, hlt, hhi⟩
    · obtain ⟨hxstart, hxlt, hxstop⟩ := hspanned.bounds x hx
      exact ⟨hlo.trans (hinner.le.trans hxstart), hxlt, hxstop.trans hhi⟩
    · rw [hstart]
      exact hinner.trans_le (hspanned.bounds x hx).1
    · obtain ⟨hcstart, -, hcstop⟩ := hspanned.bounds c (hchild c hc)
      rw [hstart, hstop]
      exact ⟨hinner.le.trans hcstart, hcstop⟩
    · rw [childrenOf_of_get? hget]
      exact hpairwise

theorem map_ids_eq_of_each {α : Type} {f : NodeId → α} {g : NodeKind × Option Position → α}
    (heach : ∀ b ∈ bs, b.ids.map f = b.tree.starts.map g) :
    (idsOfAll bs).map f = (Tree.startsOfAll (trees bs)).map g := by
  induction bs with
  | nil => rfl
  | cons b bs ih =>
    rw [idsOfAll_cons, trees_cons, Tree.startsOfAll_cons, List.map_append, List.map_append,
      heach b List.mem_cons_self, ih fun c hc => heach c (List.mem_cons_of_mem _ hc)]

/-- The nodes of a branch, in pre-order, have the kinds and starts of its tree. -/
theorem map_ids_eq (b : Branch) : ∀ parent, b.Stands d parent →
    b.ids.map (fun x => ((d.get? x).map Node.kind, (d.span? x).map Span.start)) =
      b.tree.starts.map fun (kind, start) => (some kind, start) := by
  induction b using Branch.induction with
  | step id kind span children ih =>
    rintro parent ⟨hget, hchildren⟩
    have hbelow := map_ids_eq_of_each fun b hb =>
      ih b hb (some id) (allStand_iff.mp hchildren b hb)
    rw [ids, tree, Tree.starts, List.map_cons, List.map_cons, hbelow, span?, hget]
    rfl

end Branch

namespace Document

/-- The nodes below the root are the nodes `ids`, which are all that is live, and they have
spans in the text: the spans are in order, and each starts at the first character of what
begins there. -/
structure RecordsPositions (d : Document) (text : List Char) (ids : List NodeId)
    (start stop : NodeId → Position) : Prop where
  walk_eq : d.walk .root = .ok ids
  mem_of_contains : ∀ x, d.contains x → x ≠ .root → x ∈ ids
  spanned : d.Spanned start stop .start (Position.start.after text) ids
  stop_le_start : (d.childrenOf .root).Pairwise fun x y => stop x ≤ start y
  begun : List.Forall₂
    (fun x item => (d.get? x).map Node.kind = some item.1 ∧ (start x).IsBehind item.2) ids
    (Mark.begun 0 [] text)

/-- A document that was read records the positions of its text, where each node begins with
a character that is no whitespace. -/
theorem recordsPositions_ofText (file : Option String) (css : String) :
    (∃ ids start stop, (ofTrees file (Reading.ofText css).trees).RecordsPositions css.toList ids
      start stop) ∧
      ∀ item ∈ Mark.begun 0 [] css.toList,
        ∃ c behind, item.2 ++ c :: behind = css.toList ∧ Text.isSpace c = false := by
  refine ⟨?_, fun item hmem => Mark.exists_append_of_mem_begun hmem⟩
  obtain ⟨new, hroot, htrees, hlive⟩ :=
    exists_branch_ofTrees file (Reading.orderly_ofText css).1.allHoused
  have hlinked : (ofTrees file (Reading.ofText css).trees).Linked := (sound_ofTrees file _).linked
  obtain ⟨hspanned, hsiblings⟩ := Branch.spanned_of_each (fun b _ => b.spanned (some .root))
    hroot.2 (htrees ▸ Reading.allSpanned_ofText css)
  have hstarts := Branch.map_ids_eq_of_each fun b hb =>
    b.map_ids_eq (some .root) (Branch.allStand_iff.mp hroot.2 b hb)
  rw [htrees, Reading.starts_ofText, List.map_map, ← List.forall₂_eq_eq_eq,
    List.forall₂_map_left_iff, List.forall₂_map_right_iff] at hstarts
  refine ⟨Branch.idsOfAll new, startOf _, stopOf _, hlinked.walk_eq hroot,
    fun x hx hne => (hlive x hx).resolve_left hne, hspanned, ?_, hstarts.imp fun x item hx => ?_⟩
  · rw [childrenOf_of_get? hroot.1]
    exact hsiblings
  · obtain ⟨hkind, hstart⟩ := Prod.mk.inj hx
    refine ⟨hkind, ?_⟩
    rw [startOf, hstart]
    exact Position.isBehind_start_after item.2

end Document

end Typography
