import Typography.Proofs.Document.Removal
import Typography.Proofs.Expansion.Frame

/-!
# The counts of an expansion

A pass counts while it changes the document, and the nodes it is to visit go away with the
shorthands above them. Here the counts are taken from the document before: `Document.outermost`
are the shorthands below the root that are below no other, and `Document.subtree` the nodes that
go with one of them. `Document.isCount_expand` says that the report of a pass that is done has
these numbers, that the number of nodes changes by them, and that no node comes to stand apart.

Between the document and the report stand the trees below the root: the outermost shorthands
are those at the top of branches, `Branch.outermostOfAll`, and the nodes that a rewriting of the
trees takes and adds are counted along these, `Branch.sizes_expandedAll`.
-/

namespace Typography

/-- Whether the first fragment of the value of a shorthand starts with `--`. -/
def Shorthand.opensMedia (raw : String) : Bool :=
  (Text.fragments raw.toList).head?.any fun fragment => ['-', '-'].isPrefixOf fragment

theorem Shorthand.length_media (raw : String) :
    (ofText raw).media.toList.length = (opensMedia raw).toNat := by
  unfold ofText opensMedia
  cases Text.fragments raw.toList with
  | nil => rfl
  | cons first others =>
    by_cases hmedia : ['-', '-'].isPrefixOf first <;>
      simp [isCustomMedia, ofFragments, hmedia]

namespace Tree

theorem sizes_append (trees more : List Tree) :
    sizes (trees ++ more) = sizes trees + sizes more := by
  induction trees with
  | nil => simp [sizes]
  | cons tree trees ih => rw [List.cons_append, sizes, ih, sizes, Nat.add_assoc]

theorem sizes_generated (span : Option Span) (declarations : List (String × String)) :
    sizes (generated span declarations) = declarations.length := by
  induction declarations with
  | nil => rfl
  | cons pair declarations ih =>
    rw [generated, List.map_cons, sizes, ← generated, ih, size, sizes, List.length_cons]
    omega

/-- What takes the place of a shorthand: its declarations, and a media block. -/
theorem sizes_replacement (rootSize : Option String) (span : Option Span) (raw : String) :
    sizes (replacement rootSize span raw) =
      (Shorthand.declarationsOf rootSize raw).length + (Shorthand.opensMedia raw).toNat := by
  rw [← Shorthand.length_media, replacement]
  cases (Shorthand.ofText raw).media with
  | none => exact sizes_generated span _
  | some query => simp [sizes, size, sizes_generated]

/-- The number of nodes that take the places of shorthands with the given values. -/
def added (rootSize : Option String) (raws : List String) : Nat :=
  (raws.flatMap (Shorthand.declarationsOf rootSize)).length + raws.countP Shorthand.opensMedia

theorem added_append (rootSize : Option String) (raws more : List String) :
    added rootSize (raws ++ more) = added rootSize raws + added rootSize more := by
  simp only [added, List.flatMap_append, List.length_append, List.countP_append]
  omega

end Tree

/-- The node is below the root, and neither it nor a node above it is a shorthand. -/
def Document.IsClear (d : Document) (p : NodeId) : Prop :=
  d.Over .root p ∧ ∀ a, d.Over a p → a ≠ .root → d.shorthand? a = none

namespace Branch

mutual

/-- The branches in a branch that have a shorthand at the top, and none above it. -/
def outermost : Branch → List Branch
  | node id kind span children =>
    match kind.shorthand? with
    | some _ => [node id kind span children]
    | none => outermostOfAll children

/-- Such branches in the branches of a list, one branch after the other. -/
def outermostOfAll : List Branch → List Branch
  | [] => []
  | b :: bs => b.outermost ++ outermostOfAll bs

end

theorem outermost_of_shorthand {id : NodeId} {kind : NodeKind} {span : Option Span}
    {children : List Branch} {raw : String} (h : kind.shorthand? = some raw) :
    (node id kind span children).outermost = [node id kind span children] := by
  rw [outermost, h]

theorem outermost_of_none {id : NodeId} {kind : NodeKind} {span : Option Span}
    {children : List Branch} (h : kind.shorthand? = none) :
    (node id kind span children).outermost = outermostOfAll children := by
  rw [outermost, h]

mutual

theorem outermost_sublist : ∀ b : Branch, (b.outermost.map id).Sublist b.ids
  | node x kind span children => by
    cases hraw : kind.shorthand? with
    | some raw =>
      rw [outermost_of_shorthand hraw]
      exact List.singleton_sublist.mpr List.mem_cons_self
    | none =>
      rw [outermost_of_none hraw]
      exact (outermostOfAll_sublist children).cons x

/-- The shorthands at the top of branches come in pre-order, each once. -/
theorem outermostOfAll_sublist :
    ∀ bs : List Branch, ((outermostOfAll bs).map id).Sublist (idsOfAll bs)
  | [] => List.Sublist.refl _
  | b :: bs => by
    rw [outermostOfAll, List.map_append, idsOfAll_cons]
    exact (outermost_sublist b).append (outermostOfAll_sublist bs)

end

mutual

theorem filterMap_outermost :
    ∀ b : Branch, b.outermost.filterMap (·.tree.kind.shorthand?) = b.tree.shorthands
  | node x kind span children => by
    cases hraw : kind.shorthand? with
    | some raw =>
      rw [outermost_of_shorthand hraw, tree, Tree.shorthands_of_shorthand hraw]
      simp [tree, hraw]
    | none =>
      rw [outermost_of_none hraw, tree, Tree.shorthands_of_none hraw]
      exact filterMap_outermostOfAll children

/-- Their values are those of the trees. -/
theorem filterMap_outermostOfAll :
    ∀ bs : List Branch, (outermostOfAll bs).filterMap (·.tree.kind.shorthand?) =
      Tree.shorthandsOfAll (trees bs)
  | [] => rfl
  | b :: bs => by
    rw [outermostOfAll, List.filterMap_append, filterMap_outermost b,
      filterMap_outermostOfAll bs, trees_cons, Tree.shorthandsOfAll_cons]

end

mutual

theorem length_ids : ∀ b : Branch, b.ids.length = b.tree.size
  | node _ _ _ children => by
    rw [ids, List.length_cons, length_idsOfAll children, tree, Tree.size]

theorem length_idsOfAll : ∀ bs : List Branch, (idsOfAll bs).length = Tree.sizes (trees bs)
  | [] => rfl
  | b :: bs => by
    rw [idsOfAll_cons, List.length_append, length_ids b, length_idsOfAll bs, trees_cons, Tree.sizes]

end

mutual

theorem size_expanded (rootSize : Option String) : ∀ b : Branch,
    Tree.sizes (b.tree.expanded rootSize) + (b.outermost.flatMap ids).length =
      b.ids.length + Tree.added rootSize b.tree.shorthands
  | node x kind span children => by
    cases hraw : kind.shorthand? with
    | some raw =>
      rw [tree, Tree.expanded_of_shorthand hraw, outermost_of_shorthand hraw,
        Tree.shorthands_of_shorthand hraw, Tree.sizes_replacement]
      cases hmedia : Shorthand.opensMedia raw <;> simp [Tree.added, Nat.add_comm, hmedia]
    | none =>
      have hbelow := sizes_expandedAll rootSize children
      rw [tree, Tree.expanded_of_none hraw, outermost_of_none hraw, Tree.shorthands_of_none hraw,
        Tree.sizes, Tree.size, Tree.sizes, ids, List.length_cons]
      omega

/-- A rewriting of trees takes the nodes of the branches with shorthands at the top, and adds
those that the values stand for. -/
theorem sizes_expandedAll (rootSize : Option String) : ∀ bs : List Branch,
    Tree.sizes (Tree.expandedAll rootSize (trees bs)) +
        ((outermostOfAll bs).flatMap ids).length =
      (idsOfAll bs).length + Tree.added rootSize (Tree.shorthandsOfAll (trees bs))
  | [] => rfl
  | b :: bs => by
    have hfirst := size_expanded rootSize b
    have hrest := sizes_expandedAll rootSize bs
    rw [trees_cons, Tree.expandedAll_cons, Tree.sizes_append, outermostOfAll,
      List.flatMap_append, List.length_append, idsOfAll_cons, List.length_append,
      Tree.shorthandsOfAll_cons, Tree.added_append]
    omega

end

variable {d : Document}

mutual

theorem Stands.of_mem_outermost : ∀ {b : Branch} {parent : Option NodeId}, b.Stands d parent →
    ∀ c ∈ b.outermost, ∃ p, c.Stands d p
  | node x kind span children, parent, hb, c, hc => by
    cases hraw : kind.shorthand? with
    | some raw =>
      rw [outermost_of_shorthand hraw, List.mem_singleton] at hc
      exact ⟨parent, hc ▸ hb⟩
    | none =>
      rw [outermost_of_none hraw] at hc
      exact AllStand.of_mem_outermostOfAll hb.2 c hc

theorem AllStand.of_mem_outermostOfAll : ∀ {bs : List Branch} {parent : Option NodeId},
    AllStand d parent bs → ∀ c ∈ outermostOfAll bs, ∃ p, c.Stands d p
  | b :: bs, parent, hbs, c, hc => by
    rcases List.mem_append.mp hc with hc | hc
    · exact Stands.of_mem_outermost hbs.1 c hc
    · exact AllStand.of_mem_outermostOfAll hbs.2 c hc

end

mutual

theorem Stands.mem_outermost_iff (hd : d.Linked) {s : NodeId} :
    ∀ {b : Branch} {p : NodeId}, b.Stands d (some p) → d.IsClear p →
      (s ∈ b.outermost.map id ↔ s ∈ b.ids ∧ d.IsOutermost s)
  | node x kind span children, p, hb, hp => by
    have habove : ∀ a, d.Over a x → a ≠ x → d.Over a p := by
      intro a ho hne
      obtain ⟨q, hq, hqx⟩ := Document.exists_above_of_over ho hne.symm
      exact Option.some.inj (hqx.symm.trans hb.parent?) ▸ hq
    have hroot : x ≠ .root := hd.ne_root_of_parent? hb.parent?
    have hbelow : d.Over .root x := hp.1.tail hb.parent?
    have hkind : d.shorthand? x = kind.shorthand? := Document.shorthand?_of_get? hb.1
    cases hraw : kind.shorthand? with
    | some raw =>
      have hsome : (d.shorthand? x).isSome := by rw [hkind, hraw]; rfl
      rw [outermost_of_shorthand hraw, List.map_singleton, List.mem_singleton, id]
      constructor
      · rintro rfl
        refine ⟨List.mem_cons_self, hsome, hbelow, hroot, fun a ho ha hshort => ?_⟩
        by_contra hne
        rw [hp.2 a (habove a ho hne) ha] at hshort
        cases hshort
      · rintro ⟨hmem, hs⟩
        exact (hs.eq_of_over x (hb.over_of_mem s hmem) hroot hsome).symm
    | none =>
      have hx : d.IsClear x := by
        refine ⟨hbelow, fun a ho ha => ?_⟩
        by_cases hne : a = x
        · rw [hne, hkind, hraw]
        · exact hp.2 a (habove a ho hne) ha
      rw [outermost_of_none hraw, AllStand.mem_outermostOfAll_iff hd hb.2 hx, ids, List.mem_cons]
      refine and_congr_left fun hs => ⟨.inr, fun hmem => hmem.resolve_left ?_⟩
      rintro rfl
      have hshort := hs.isSome_shorthand?
      rw [hkind, hraw] at hshort
      cases hshort

/-- Below nodes that are no shorthands, the shorthands at the top of branches are the
outermost ones. -/
theorem AllStand.mem_outermostOfAll_iff (hd : d.Linked) {s : NodeId} :
    ∀ {bs : List Branch} {p : NodeId}, AllStand d (some p) bs → d.IsClear p →
      (s ∈ (outermostOfAll bs).map id ↔ s ∈ idsOfAll bs ∧ d.IsOutermost s)
  | [], p, _, _ => by simp [outermostOfAll]
  | b :: bs, p, hbs, hp => by
    rw [outermostOfAll, List.map_append, List.mem_append, Stands.mem_outermost_iff hd hbs.1 hp,
      AllStand.mem_outermostOfAll_iff hd hbs.2 hp, idsOfAll_cons, List.mem_append, or_and_right]

end

end Branch

namespace Document

/-- The shorthands below the root that are below no other shorthand. -/
def outermost (d : Document) : List NodeId :=
  d.live.filter fun s =>
    (d.shorthand? s).isSome && s != .root && (d.lineage s).contains .root &&
      (d.lineage s).all fun a => a == s || a == .root || (d.shorthand? a).isNone

/-- A node with the nodes below it. -/
def subtree (d : Document) (s : NodeId) : List NodeId :=
  d.live.filter fun x => s ∈ d.lineage x

/-- The nodes that are not below the root. -/
def loose (d : Document) : List NodeId :=
  d.live.filter fun x => .root ∉ d.lineage x

variable {d d' : Document}

theorem Linked.mem_outermost_iff (h : d.Linked) {s : NodeId} :
    s ∈ d.outermost ↔ d.IsOutermost s := by
  rw [outermost, List.mem_filter, mem_live_iff]
  constructor
  · rintro ⟨hlive, hs⟩
    simp only [Bool.and_eq_true, Bool.or_eq_true, bne_iff_ne, List.contains_iff_mem, beq_iff_eq,
      List.all_eq_true, h.mem_lineage_iff hlive, Option.isNone_iff_eq_none] at hs
    obtain ⟨⟨⟨hsome, hroot⟩, hbelow⟩, habove⟩ := hs
    refine ⟨hsome, hbelow, hroot, fun a ho ha hshort => ?_⟩
    rcases habove a ho with (heq | heq) | hnone
    · exact heq
    · exact absurd heq ha
    · rw [hnone] at hshort
      cases hshort
  · intro hs
    have hlive := hs.contains
    simp only [Bool.and_eq_true, Bool.or_eq_true, bne_iff_ne, List.contains_iff_mem, beq_iff_eq,
      List.all_eq_true, h.mem_lineage_iff hlive, Option.isNone_iff_eq_none]
    refine ⟨hlive, ⟨⟨hs.isSome_shorthand?, hs.ne_root⟩, hs.below_root⟩, fun a ho => ?_⟩
    by_cases ha : a = .root
    · exact .inl (.inr ha)
    · by_cases hnone : d.shorthand? a = none
      · exact .inr hnone
      · exact .inl (.inl (hs.eq_of_over a ho ha (Option.isSome_iff_ne_none.mpr hnone)))

theorem nodup_outermost (d : Document) : d.outermost.Nodup :=
  (nodup_live d).filter _

theorem nodup_subtree (d : Document) (s : NodeId) : (d.subtree s).Nodup :=
  (nodup_live d).filter _

theorem Linked.mem_subtree_iff (h : d.Linked) {s x : NodeId} :
    x ∈ d.subtree s ↔ d.contains x ∧ d.Over s x := by
  rw [subtree, List.mem_filter, mem_live_iff, decide_eq_true_iff]
  exact and_congr_right fun hx => h.mem_lineage_iff hx

theorem nodup_loose (d : Document) : d.loose.Nodup :=
  (nodup_live d).filter _

theorem Linked.mem_loose_iff (h : d.Linked) {x : NodeId} :
    x ∈ d.loose ↔ d.contains x ∧ ¬ d.Over .root x := by
  rw [loose, List.mem_filter, mem_live_iff, decide_eq_true_iff]
  exact and_congr_right fun hx => not_congr (h.mem_lineage_iff hx)

/-- The subtree of a node has the nodes of the branch that stands there. -/
theorem Linked.subtree_perm (h : d.Linked) {b : Branch} {parent : Option NodeId}
    (hb : b.Stands d parent) : (d.subtree b.id).Perm b.ids := by
  rw [List.perm_ext_iff_of_nodup (d.nodup_subtree b.id) (h.nodup_ids hb)]
  intro x
  rw [h.mem_subtree_iff, h.mem_ids_iff hb]
  exact and_iff_right_of_imp fun ho => hb.contains x (h.mem_ids_of_over hb ho)

section

variable {kind : NodeKind} {span : Option Span} {bs : List Branch}

/-- The outermost shorthands are the ones at the top of the branches below the root. -/
theorem Linked.outermost_perm (h : d.Linked)
    (hroot : (Branch.node .root kind span bs).Stands d none) :
    d.outermost.Perm ((Branch.outermostOfAll bs).map Branch.id) := by
  have hids := h.nodup_ids hroot
  rw [Branch.ids, List.nodup_cons] at hids
  have hnodup := (Branch.outermostOfAll_sublist bs).nodup hids.2
  have hclear : d.IsClear .root :=
    ⟨Relation.ReflTransGen.refl, fun a ho ha => absurd (h.eq_root_of_over ho) ha⟩
  rw [List.perm_ext_iff_of_nodup (nodup_outermost d) hnodup]
  intro s
  rw [h.mem_outermost_iff, hroot.2.mem_outermostOfAll_iff h hclear, h.mem_idsOfAll_iff hroot]
  exact (and_iff_right_of_imp fun hs => ⟨hs.below_root, hs.ne_root⟩).symm

/-- The values of the outermost shorthands are those of the trees. -/
theorem Linked.values_perm (h : d.Linked)
    (hroot : (Branch.node .root kind span bs).Stands d none) :
    (d.outermost.filterMap d.shorthand?).Perm (Tree.shorthandsOfAll (Branch.trees bs)) := by
  refine ((h.outermost_perm hroot).filterMap d.shorthand?).trans (.of_eq ?_)
  rw [List.filterMap_map, ← Branch.filterMap_outermostOfAll]
  refine List.filterMap_congr fun b hb => ?_
  obtain ⟨p, hstands⟩ := hroot.2.of_mem_outermostOfAll b hb
  cases b
  exact shorthand?_of_get? hstands.1

/-- The nodes that go with the outermost shorthands are those of their branches. -/
theorem Linked.flatMap_subtree_perm (h : d.Linked)
    (hroot : (Branch.node .root kind span bs).Stands d none) :
    (d.outermost.flatMap d.subtree).Perm ((Branch.outermostOfAll bs).flatMap Branch.ids) := by
  refine ((h.outermost_perm hroot).flatMap_right _).trans ?_
  rw [List.flatMap_map]
  refine List.Perm.flatMap_left _ fun b hb => ?_
  obtain ⟨p, hstands⟩ := hroot.2.of_mem_outermostOfAll b hb
  exact h.subtree_perm hstands

/-- There are the root, the nodes of the branches below it, and those that are not below it. -/
theorem Linked.size_eq (h : d.Linked)
    (hroot : (Branch.node .root kind span bs).Stands d none) :
    d.size = Tree.sizes (Branch.trees bs) + 1 + d.loose.length := by
  have hnodup := h.nodup_ids hroot
  have hall : ((Branch.node .root kind span bs).ids ++ d.loose).Nodup := by
    rw [List.nodup_append]
    refine ⟨hnodup, d.nodup_loose, ?_⟩
    rintro x hx y hy rfl
    exact (h.mem_loose_iff.mp hy).2 (hroot.over_of_mem x hx)
  have hperm : d.live.Perm ((Branch.node .root kind span bs).ids ++ d.loose) := by
    rw [List.perm_ext_iff_of_nodup (nodup_live d) hall]
    intro x
    rw [mem_live_iff, List.mem_append, h.mem_loose_iff, h.mem_ids_iff hroot]
    constructor
    · intro hx
      by_cases ho : d.Over .root x
      · exact .inl ho
      · exact .inr ⟨hx, ho⟩
    · rintro (ho | ⟨hx, -⟩)
      · exact hroot.contains x (h.mem_ids_of_over hroot ho)
      · exact hx
  rw [← length_live, hperm.length_eq, List.length_append, Branch.length_ids]
  rfl

end

/-- An expansion leaves the nodes apart from the root that were apart, and no other. -/
theorem Expanded.loose_iff {rootSize : Option String} {done : List NodeId}
    {new : NodeId → List Branch} (h : Expanded rootSize done new d d') (hd : d.Linked)
    (hdone : ∀ s ∈ done, d.IsOutermost s) (x : NodeId) :
    d'.contains x ∧ ¬ d'.Over .root x ↔ d.contains x ∧ ¬ d.Over .root x := by
  constructor
  · rintro ⟨hlive, hloose⟩
    rcases h.live x hlive with hx | ⟨s, hs, hx⟩
    · exact ⟨hx, fun ho => hloose (h.over_after ho ((h.contains_iff hx).mp hlive))⟩
    · obtain ⟨p, hbelow, hp⟩ := exists_above_of_over (hdone s hs).below_root (hdone s hs).ne_root
      obtain ⟨c, -, hstands, hxc⟩ := (h.stands s hs).exists_of_mem hx
      have hpc : d'.Above p c.id := hstands.parent?.trans hp
      have hroot : d'.Over .root p := h.over_after hbelow fun t ht =>
        (hdone t ht).not_over_parent hd (hdone s hs) hp
      exact absurd ((hroot.tail hpc).trans (hstands.over_of_mem x hxc)) hloose
  · rintro ⟨hx, hloose⟩
    have hkept : ∀ s ∈ done, ¬ d.Over s x := fun s hs ho =>
      hloose ((hdone s hs).below_root.trans ho)
    exact ⟨(h.contains_iff hx).mpr hkept, fun ho => hloose (h.over_of_over hd ho hx hkept)⟩

/-- The report and the document `d'` have the counts that `d` gives. -/
structure IsCount (rootSize : Option String) (d d' : Document) (report : Report) : Prop where
  nodup_outermost : d.outermost.Nodup
  mem_outermost_iff : ∀ s, s ∈ d.outermost ↔ d.IsOutermost s
  nodup_subtree : ∀ s, (d.subtree s).Nodup
  mem_subtree_iff : ∀ s x, x ∈ d.subtree s ↔ d.contains x ∧ d.Over s x
  shorthands_eq : report.shorthands = d.outermost.length
  declarations_eq : report.declarations =
    ((d.outermost.filterMap d.shorthand?).flatMap (Shorthand.declarationsOf rootSize)).length
  mediaBlocks_eq : report.mediaBlocks =
    (d.outermost.filterMap d.shorthand?).countP Shorthand.opensMedia
  size_eq : d'.size + (d.outermost.flatMap d.subtree).length =
    d.size + report.declarations + report.mediaBlocks
  /-- What the shorthands stood over is gone. -/
  gone : ∀ s ∈ d.outermost, ∀ x ∈ d.subtree s, d'.contains x = false
  /-- No node has come to stand apart from the root, and none that stood apart is gone. -/
  loose_iff : ∀ x, d'.contains x ∧ ¬ d'.Over .root x ↔ d.contains x ∧ ¬ d.Over .root x

theorem Linked.length_values (h : d.Linked) :
    (d.outermost.filterMap d.shorthand?).length = d.outermost.length :=
  List.filterMap_length_eq_length.mpr fun _ hs => (h.mem_outermost_iff.mp hs).isSome_shorthand?

/-- The counts of a report in which every shorthand was expanded. -/
theorem Linked.counts_eq (h : d.Linked) (rootSize : Option String) :
    Passing.counted rootSize .zero (Tree.shorthandsOfAll d.trees) =
      ⟨d.outermost.length,
        ((d.outermost.filterMap d.shorthand?).flatMap (Shorthand.declarationsOf rootSize)).length,
        (d.outermost.filterMap d.shorthand?).countP Shorthand.opensMedia⟩ := by
  obtain ⟨kind, span, bs, hroot, htrees⟩ := h.exists_root
  have hperm := h.values_perm hroot
  have hmedia : ∀ raws : List String,
      (raws.flatMap fun raw => (Shorthand.ofText raw).media.toList).length =
        raws.countP Shorthand.opensMedia := by
    intro raws
    induction raws with
    | nil => rfl
    | cons raw raws ih =>
      rw [List.flatMap_cons, List.length_append, ih, Shorthand.length_media, List.countP_cons,
        Nat.add_comm]
      cases Shorthand.opensMedia raw <;> rfl
  rw [htrees, ← h.length_values, hperm.length_eq, (hperm.flatMap_right _).length_eq,
    hperm.countP_eq]
  simp [Passing.counted, Report.plus, Report.zero, hmedia]

/-- What a rewriting of the trees and nothing else does to the number of nodes. -/
theorem Linked.size_add_length (h : d.Linked) (h' : d'.Linked) {rootSize : Option String}
    (htrees : d'.trees = Tree.expandedAll rootSize d.trees)
    (hloose : ∀ x, d'.contains x ∧ ¬ d'.Over .root x ↔ d.contains x ∧ ¬ d.Over .root x) :
    d'.size + (d.outermost.flatMap d.subtree).length =
      d.size + Tree.added rootSize (d.outermost.filterMap d.shorthand?) := by
  obtain ⟨kind, span, bs, hroot, hbs⟩ := h.exists_root
  obtain ⟨kind', span', bs', hroot', hbs'⟩ := h'.exists_root
  have hperm : d'.loose.Perm d.loose := by
    rw [List.perm_ext_iff_of_nodup d'.nodup_loose d.nodup_loose]
    intro x
    rw [h'.mem_loose_iff, h.mem_loose_iff, hloose]
  have hadded : Tree.added rootSize (d.outermost.filterMap d.shorthand?) =
      Tree.added rootSize (Tree.shorthandsOfAll (Branch.trees bs)) := by
    have hvalues := h.values_perm hroot
    rw [Tree.added, Tree.added, (hvalues.flatMap_right _).length_eq, hvalues.countP_eq]
  have hsizes := Branch.sizes_expandedAll rootSize bs
  rw [Branch.length_idsOfAll] at hsizes
  rw [h'.size_eq hroot', h.size_eq hroot, ← hbs', htrees, hbs,
    (h.flatMap_subtree_perm hroot).length_eq, hadded, hperm.length_eq]
  omega

/-- An expansion that is done has counted what it did, and keeps no node that has no place. -/
theorem isCount_expand (h : d.Reached Operation.KeepsKinds) {options : Options} {report : Report}
    (hdone : (d.expand options).result = .ok report) :
    IsCount options.usedRootSize d (d.expand options).document report := by
  have hd := h.sound.linked
  have hd' : (d.expand options).document.Linked := (expand_keeps Edit.kept_sound h.sound _).linked
  cases hvalid : options.validate with
  | error cause =>
    rw [expand_of_validate_error hvalid] at hdone
    cases hdone
  | ok _ =>
    have hsized : ∀ x, ¬ d.LacksFontSize x := by
      rcases h.sound.expand_stops hvalid with ⟨hnone, -⟩ | ⟨_, _, -, hmissing, -⟩
      · exact hnone
      · rw [hmissing] at hdone
        cases hdone
    obtain ⟨done, new, hmem, hexpanded⟩ := h.sound.exists_expanded_of_sized hvalid hsized
    have hloose := hexpanded.loose_iff hd fun s hs => (hmem s).mp hs
    rcases h.sound.expand_cases hvalid with ⟨-, hresult, htrees⟩ | ⟨-, location, hmissing⟩
    · rw [hd.counts_eq, hdone] at hresult
      obtain rfl := Except.ok.inj hresult
      refine ⟨nodup_outermost d, fun _ => hd.mem_outermost_iff, nodup_subtree d,
        fun _ _ => hd.mem_subtree_iff, rfl, rfl, rfl, ?_, fun s hs x hx => ?_, hloose⟩
      · rw [hd.size_add_length hd' htrees hloose, Tree.added, Nat.add_assoc]
      · have hgone := hexpanded.gone s ((hmem s).mpr (hd.mem_outermost_iff.mp hs)) x
          (hd.mem_subtree_iff.mp hx).2
        simp [contains, hgone]
    · rw [hmissing] at hdone
      cases hdone

/-- A shorthand with a media block in a rule, one that is below another one, one at the top,
and a rule with a shorthand that stands apart from the root. -/
def ofCountedShorthands : Document :=
  [.create (.rule "a"), .append .root ⟨2⟩, .create (.atRule "type" "--m 1em / 2em" true),
    .append ⟨2⟩ ⟨3⟩, .create (.declaration "type" "3em"), .append ⟨3⟩ ⟨4⟩,
    .create (.declaration "type" "/ 1em 2em 3em"), .append .root ⟨5⟩, .create (.rule "b"),
    .create (.declaration "type" "4em"), .append ⟨6⟩ ⟨7⟩].foldl Operation.apply (.empty none)

theorem isCount_expand_ofCountedShorthands :
    ofCountedShorthands.Reached Operation.KeepsKinds ∧
      ofCountedShorthands.outermost = [⟨3⟩, ⟨5⟩] ∧
      ofCountedShorthands.subtree ⟨3⟩ = [⟨3⟩, ⟨4⟩] ∧ ofCountedShorthands.size = 7 ∧
      (ofCountedShorthands.expand .unset).document.size = 9 ∧
      IsCount none ofCountedShorthands (ofCountedShorthands.expand .unset).document ⟨2, 4, 1⟩ := by
  have hreached : ofCountedShorthands.Reached Operation.KeepsKinds :=
    (Reached.empty none).foldl (by simp [Operation.KeepsKinds])
  have hdone : (ofCountedShorthands.expand .unset).result = .ok ⟨2, 4, 1⟩ := by decide +kernel
  exact ⟨hreached, by decide +kernel, by decide +kernel, by decide +kernel, by decide +kernel,
    isCount_expand hreached hdone⟩

end Document

end Typography
