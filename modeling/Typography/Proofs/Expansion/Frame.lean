import Typography.Proofs.Expansion.Outcome

/-!
# What an expansion leaves alone

An expansion inserts into lists of children that other nodes share, and frees nodes all over
the document. Nevertheless a node that is no shorthand below the root, and below none, keeps
everything but the shorthands among its children, in a pass that is done as in one that ends
early, `Document.leavesAlone_expand`.
-/

namespace Typography.Document

/-- The node is a shorthand below the root, or is below one. -/
def IsCovered (d : Document) (x : NodeId) : Prop :=
  ∃ s, (d.shorthand? s).isSome ∧ d.Over .root s ∧ s ≠ .root ∧ d.Over s x

/-- The identifier was given to a node that is gone. -/
def IsStale (d : Document) (x : NodeId) : Prop :=
  x.serial < d.slots.size ∧ d.contains x = false

/-- What stands in `d'` as it stood in `d`: the nodes that are not covered by a shorthand,
with their order below one parent, and everything that is not below the root. -/
structure LeavesAlone (d d' : Document) : Prop where
  kept : ∀ x node, d.get? x = some node → ¬ d.IsCovered x →
    ∃ children, d'.get? x = some { node with children }
  order : ∀ p x y, ¬ d.IsCovered x → ¬ d.IsCovered y → [x, y].Sublist (d.childrenOf p) →
    [x, y].Sublist (d'.childrenOf p)
  detached : ∀ x, d.contains x → ¬ d.Over .root x → d'.get? x = d.get? x
  stale : ∀ x, d.IsStale x → d'.IsStale x
  contains_root : d'.contains .root
  file_eq : d'.file = d.file

variable {d d' : Document} {rootSize : Option String} {done : List NodeId}
  {new : NodeId → List Branch}

theorem LeavesAlone.refl (h : d.Linked) : d.LeavesAlone d where
  kept _ node hn _ := ⟨node.children, hn⟩
  order _ _ _ _ _ hxy := hxy
  detached _ _ _ := rfl
  stale _ hx := hx
  contains_root := h.contains_root
  file_eq := rfl

theorem IsOutermost.isCovered {s x : NodeId} (hs : d.IsOutermost s) (ho : d.Over s x) :
    d.IsCovered x :=
  ⟨s, hs.isSome_shorthand?, hs.below_root, hs.ne_root, ho⟩

/-- What is above an outermost shorthand is below the root. -/
theorem IsOutermost.over_root_of_above {s x : NodeId} (hs : d.IsOutermost s) (hx : d.Above x s) :
    d.Over .root x := by
  obtain ⟨p, hbelow, hp⟩ := exists_above_of_over hs.below_root hs.ne_root
  obtain rfl : p = x := Option.some.inj (hp.symm.trans hx)
  exact hbelow

theorem IsCovered.of_above {p x : NodeId} (h : d.IsCovered p) (hpx : d.Above p x) :
    d.IsCovered x := by
  obtain ⟨s, hs, hbelow, hroot, ho⟩ := h
  exact ⟨s, hs, hbelow, hroot, ho.tail hpx⟩

theorem Linked.not_isCovered_root (h : d.Linked) : ¬ d.IsCovered .root := by
  rintro ⟨s, -, -, hroot, ho⟩
  exact hroot (h.eq_root_of_over ho)

/-- What is not below the root is covered by no shorthand. -/
theorem not_isCovered_of_not_over {x : NodeId} (hx : ¬ d.Over .root x) : ¬ d.IsCovered x := by
  rintro ⟨s, -, hbelow, -, ho⟩
  exact hx (hbelow.trans ho)

/-- The children that are not `done` stay in a list of children, in their order. -/
theorem filter_sublist_replacing (done : List NodeId) (new : NodeId → List Branch)
    (children : List NodeId) :
    (children.filter (· ∉ done)).Sublist (replacing done new children) := by
  induction children with
  | nil => exact List.Sublist.refl _
  | cons c children ih =>
    rw [replacing_cons]
    by_cases hc : c ∈ done
    · rw [List.filter_cons_of_neg (by simpa using hc), if_pos hc]
      exact ih.trans (List.sublist_append_right _ _)
    · rw [List.filter_cons_of_pos (by simpa using hc), if_neg hc]
      exact ih.cons_cons c

theorem replacing_of_forall_notMem {children : List NodeId} (h : ∀ c ∈ children, c ∉ done) :
    replacing done new children = children := by
  rw [replacing, List.flatMap_congr fun c hc => if_neg (h c hc), List.flatMap_singleton']

/-- Expanding outermost shorthands leaves the rest alone. -/
theorem Expanded.leavesAlone (h : Expanded rootSize done new d d') (hd : d.Linked)
    (hdone : ∀ s ∈ done, d.IsOutermost s) : d.LeavesAlone d' := by
  have hkept : ∀ x node, d.get? x = some node → ¬ d.IsCovered x →
      d'.get? x = some { node with children := replacing done new node.children } :=
    fun x node hn hx => h.kept x node hn fun s hs ho => hx ((hdone s hs).isCovered ho)
  have hnot : ∀ x, ¬ d.IsCovered x → x ∉ done := fun x hx hmem =>
    hx ((hdone x hmem).isCovered Relation.ReflTransGen.refl)
  refine ⟨fun x node hn hx => ⟨_, hkept x node hn hx⟩, ?_, ?_, ?_, ?_, h.file_eq⟩
  · intro p x y hx hy hxy
    have hpx : d.Above p x := by
      rw [Above, ← hd.mem_childrenOf_iff]
      exact hxy.subset List.mem_cons_self
    obtain ⟨node, hn⟩ := exists_get?_of_contains (hd.contains_parent hpx)
    have hp : ¬ d.IsCovered p := fun hcovered => hx (hcovered.of_above hpx)
    rw [childrenOf_of_get? hn] at hxy
    rw [childrenOf_of_get? (hkept p node hn hp)]
    have hfilter : [x, y].filter (· ∉ done) = [x, y] := by
      simp [hnot x hx, hnot y hy]
    calc [x, y] = [x, y].filter (· ∉ done) := hfilter.symm
      _ |>.Sublist (node.children.filter (· ∉ done)) := hxy.filter _
      _ |>.Sublist (replacing done new node.children) := filter_sublist_replacing done new _
  · intro x hlive hx
    obtain ⟨node, hn⟩ := exists_get?_of_contains hlive
    -- a child that was expanded would be below the root, and its parent with it
    have hchildren : ∀ c ∈ node.children, c ∉ done := by
      intro c hc hmem
      rw [← childrenOf_of_get? hn, hd.mem_childrenOf_iff] at hc
      exact hx ((hdone c hmem).over_root_of_above hc)
    rw [hkept x node hn (not_isCovered_of_not_over hx), hn, replacing_of_forall_notMem hchildren]
  · rintro x ⟨hlt, hgone⟩
    refine ⟨Nat.lt_of_lt_of_le hlt h.size_le, ?_⟩
    rw [← Bool.not_eq_true] at hgone ⊢
    intro hlive
    rcases h.live x hlive with hx | ⟨s, hs, hx⟩
    · exact hgone hx
    · exact absurd hlt (Nat.not_lt.mpr (h.le_serial s hs x hx))
  · obtain ⟨node, hn⟩ := exists_get?_of_contains hd.contains_root
    exact contains_of_get? (hkept .root node hn hd.not_isCovered_root)

/-- A pass in which every outermost shorthand has a font size expands them all. -/
theorem Sound.exists_expanded_of_sized (h : d.Sound) {options : Options}
    (hvalid : options.validate = .ok ()) (hsized : ∀ x, ¬ d.LacksFontSize x) :
    ∃ done new, (∀ s, s ∈ done ↔ d.IsOutermost s) ∧
      Expanded options.usedRootSize done new d (d.expand options).document := by
  obtain ⟨kind, span, bs, hroot, -⟩ := h.linked.exists_root
  have hwalk := h.linked.walk_eq hroot
  have hnodup := h.linked.nodup_ids hroot
  rw [Branch.ids, List.nodup_cons] at hnodup
  obtain ⟨done, new, pass, hon, hdone, hexpanded, -⟩ :=
    Passing.expanded_of_visited options.usedRootSize h hroot.2 hnodup.2 ⟨d, .zero, #[]⟩ rfl _ []
      (List.append_nil _).symm fun x _ => hsized x
  have hmem : ∀ s, d.IsOutermost s → s ∈ Branch.idsOfAll bs := fun s hs =>
    (h.linked.mem_idsOfAll_iff hroot).mpr ⟨hs.below_root, hs.ne_root⟩
  refine ⟨done, new, fun s => ?_, ?_⟩
  · rw [hdone]
    exact and_iff_right_of_imp (hmem s)
  · rwa [(expand_of_visits_ok hvalid hwalk hon).2]

/-- With options that are not refused, a pass has expanded some of the outermost shorthands
when it ends, early or not. -/
theorem Sound.exists_expanded (h : d.Sound) {options : Options}
    (hvalid : options.validate = .ok ()) :
    ∃ done new, (∀ s ∈ done, d.IsOutermost s) ∧
      Expanded options.usedRootSize done new d (d.expand options).document := by
  rcases h.expand_stops hvalid with ⟨hsized, -⟩ | ⟨before, id, -, -, done, new, hdone, hexpanded⟩
  · obtain ⟨done, new, hdone, hexpanded⟩ := h.exists_expanded_of_sized hvalid hsized
    exact ⟨done, new, fun s hs => (hdone s).mp hs, hexpanded⟩
  · exact ⟨done, new, fun s hs => ((hdone s).mp hs).2, hexpanded⟩

/-- What an expansion leaves alone, whatever it comes to. -/
theorem leavesAlone_expand (h : d.Reached Operation.KeepsKinds) (options : Options) :
    d.LeavesAlone (d.expand options).document := by
  cases hvalid : options.validate with
  | error cause =>
    rw [expand_of_validate_error hvalid]
    exact .refl h.sound.linked
  | ok _ =>
    obtain ⟨done, new, hdone, hexpanded⟩ := h.sound.exists_expanded hvalid
    exact hexpanded.leavesAlone h.sound.linked hdone

/-- A rule with a shorthand between two declarations, a shorthand with a node below it and one
without a font size; apart from these a rule with a shorthand that stands nowhere, and a
comment that was removed. -/
def ofLooseRule : Document :=
  [.create (.rule "a"), .append .root ⟨2⟩, .create (.declaration "color" "red"), .append ⟨2⟩ ⟨3⟩,
    .create (.declaration "type" "1em 2"), .append ⟨2⟩ ⟨4⟩,
    .create (.declaration "width" "0"), .append ⟨2⟩ ⟨5⟩,
    .create (.atRule "type" "--m 2em" true), .append .root ⟨6⟩,
    .create (.comment "c"), .append ⟨6⟩ ⟨7⟩, .create (.declaration "type" "--m"), .append .root ⟨8⟩,
    .create (.rule "b"), .create (.declaration "type" "3em"), .append ⟨9⟩ ⟨10⟩,
    .create (.comment "d"), .append .root ⟨11⟩, .remove ⟨11⟩].foldl Operation.apply (.empty none)

theorem leavesAlone_expand_ofLooseRule :
    ofLooseRule.Reached Operation.KeepsKinds ∧
      (ofLooseRule.expand .unset).result = .error (.missingFontSize none) ∧
      (ofLooseRule.expand .unset).document ≠ ofLooseRule ∧
      ofLooseRule.LeavesAlone (ofLooseRule.expand .unset).document := by
  have hreached : ofLooseRule.Reached Operation.KeepsKinds :=
    (Reached.empty none).foldl (by simp [Operation.KeepsKinds])
  exact ⟨hreached, by decide +kernel, by decide +kernel, leavesAlone_expand hreached .unset⟩

end Typography.Document
