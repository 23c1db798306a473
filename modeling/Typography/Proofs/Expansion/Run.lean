import Typography.Proofs.Expansion.Replacement

/-!
# A whole pass

The nodes that a pass visits are those of the branches below the root when it
starts. While it runs, the branches that are still to come stand as they did: what
was done so far has touched the nodes of the branches before them and their parent
only. Nodes below an expanded shorthand are gone when their turn comes, and the
generated ones are new, so neither is expanded.

`Passing.Visited` says what comes of visiting the nodes of branches below one
parent. It is proved along the branches, `Passing.visited`.
-/

namespace Typography.Passing

open Document

variable {rootSize : Option String}

theorem forM_append {α : Type} (f : α → Passing PUnit) (ids more : List α) :
    (ids ++ more).forM f = (ids.forM f >>= fun _ => more.forM f) :=
  List.forM_append

theorem forM_append_on {α : Type} {f : α → Passing PUnit} {ids : List α} (more : List α)
    {pass pass' : Pass} (h : (ids.forM f).on pass = (.ok (), pass')) :
    ((ids ++ more).forM f).on pass = (more.forM f).on pass' := by
  rw [forM_append, on_bind_of_ok h]

theorem forM_append_on_of_error {α : Type} {f : α → Passing PUnit} {ids : List α} (more : List α)
    {pass pass' : Pass} {cause : ExpansionError}
    (h : (ids.forM f).on pass = (.error cause, pass')) :
    ((ids ++ more).forM f).on pass = (.error cause, pass') := by
  rw [forM_append, on_bind_of_error h]

/-- Nodes that are gone are passed over. -/
theorem forM_visit_of_gone {ids : List NodeId} {pass : Pass}
    (h : ∀ x ∈ ids, pass.document.get? x = none) :
    (ids.forM (visit rootSize)).on pass = (.ok (), pass) := by
  induction ids with
  | nil => rfl
  | cons id ids ih =>
    change (visit rootSize id >>= fun _ => ids.forM (visit rootSize)).on pass = _
    have hgone := h id List.mem_cons_self
    rw [on_bind_of_ok (visit_of_none (by simp [hgone]))]
    exact ih fun x hx => h x (List.mem_cons_of_mem _ hx)

/-- A report with what is done for shorthands of the given values. -/
def counted (rootSize : Option String) (report : Report) (raws : List String) : Report :=
  report.plus raws.length (raws.flatMap (Shorthand.declarationsOf rootSize)).length
    (raws.flatMap fun raw => (Shorthand.ofText raw).media.toList).length

theorem counted_append (report : Report) (raws more : List String) :
    counted rootSize report (raws ++ more) =
      counted rootSize (counted rootSize report raws) more := by
  simp [counted, Report.plus, Nat.add_assoc]

/-- The branches `bs` below `p`, between `before` and `after`, were rewritten. -/
structure Rewritten (rootSize : Option String) (p : NodeId) (node : Node)
    (before after : List NodeId) (bs new : List Branch) (pass pass' : Pass) : Prop where
  get?_parent : pass'.document.get? p =
    some { node with children := before ++ new.map Branch.id ++ after }
  stands : Branch.AllStand pass'.document (some p) new
  trees : Branch.trees new = Tree.expandedAll rootSize (Branch.trees bs)
  ids : ∀ x ∈ Branch.idsOfAll new,
    x ∈ Branch.idsOfAll bs ∨ pass.document.slots.size ≤ x.serial
  sameBut : SameBut (p :: Branch.idsOfAll bs) pass.document pass'.document
  report : pass'.report =
    counted rootSize pass.report (Tree.shorthandsOfAll (Branch.trees bs))

/-- What comes of visiting the nodes of the branches `bs`: they are rewritten if
each of their shorthands has a font size, and the pass ends early otherwise. -/
def Visited (rootSize : Option String) (p : NodeId) (node : Node) (before after : List NodeId)
    (bs : List Branch) (pass : Pass) : Prop :=
  (∀ raw ∈ Tree.shorthandsOfAll (Branch.trees bs), (Shorthand.ofText raw).fontSize.isSome) ∧
      (∃ new pass', ((Branch.idsOfAll bs).forM (visit rootSize)).on pass = (.ok (), pass') ∧
        Rewritten rootSize p node before after bs new pass pass') ∨
    (∃ raw ∈ Tree.shorthandsOfAll (Branch.trees bs), (Shorthand.ofText raw).fontSize = none) ∧
      ∃ location pass', ((Branch.idsOfAll bs).forM (visit rootSize)).on pass =
        (.error (.missingFontSize location), pass')

theorem Rewritten.nil {p : NodeId} {node : Node} {before after : List NodeId} {pass : Pass}
    (hp : pass.document.get? p = some node) (hchildren : node.children = before ++ after) :
    Rewritten rootSize p node before after [] [] pass pass where
  get?_parent := by rw [hp, List.map_nil, List.append_nil, ← hchildren]
  stands := trivial
  trees := rfl
  ids := by simp
  sameBut := .refl _ _
  report := rfl

/-- One branch after the other is rewritten. -/
theorem Rewritten.append {p : NodeId} {node : Node} {before after between : List NodeId}
    {bs cs new more : List Branch} {pass pass' pass'' : Pass}
    (h : Rewritten rootSize p node before (cs.map Branch.id ++ after) bs new pass pass')
    (h' : Rewritten rootSize p { node with children := between }
      (before ++ new.map Branch.id) after cs more pass' pass'')
    (hlive : ∀ x ∈ Branch.idsOfAll cs, pass.document.contains x)
    (hp : pass.document.contains p) (hpbs : p ∉ Branch.idsOfAll bs)
    (hnodup : (Branch.idsOfAll (bs ++ cs)).Nodup) :
    Rewritten rootSize p node before after (bs ++ cs) (new ++ more) pass pass'' where
  get?_parent := by
    rw [h'.get?_parent]
    simp
  stands := by
    rw [Branch.allStand_append]
    refine ⟨h'.sameBut.allStand h.stands fun x hx hmem => ?_, h'.stands⟩
    rw [Branch.idsOfAll_append, List.nodup_append] at hnodup
    rcases List.mem_cons.mp hmem with rfl | hmem
    · have := serial_lt_of_contains hp
      rcases h.ids x hx with hx | hx
      · exact hpbs hx
      · omega
    · have := serial_lt_of_contains (hlive x hmem)
      rcases h.ids x hx with hx | hx
      · exact hnodup.2.2 x hx x hmem rfl
      · omega
  trees := by
    rw [Branch.trees_append, Branch.trees_append, Tree.expandedAll_append, h.trees, h'.trees]
  ids := by
    intro x hx
    rw [Branch.idsOfAll_append, List.mem_append] at hx ⊢
    rcases hx with hx | hx
    · exact (h.ids x hx).imp_left .inl
    · exact (h'.ids x hx).imp .inr (Nat.le_trans h.sameBut.size_le)
  sameBut := by
    refine (h.sameBut.mono fun x hx => .inl ?_).trans (h'.sameBut.mono fun x hx => .inl ?_) <;>
      · rw [Branch.idsOfAll_append]
        rcases List.mem_cons.mp hx with rfl | hx <;> simp_all
  report := by
    rw [h'.report, h.report, ← counted_append, Branch.trees_append, Tree.shorthandsOfAll_append]

theorem Visited.nil {p : NodeId} {node : Node} {before after : List NodeId} {pass : Pass}
    (hp : pass.document.get? p = some node) (hchildren : node.children = before ++ after) :
    Visited rootSize p node before after [] pass :=
  .inl ⟨by simp, [], pass, rfl, .nil hp hchildren⟩

/-- Some branches were rewritten, and what comes of those behind them is known. -/
theorem Visited.of_rewritten {p : NodeId} {node : Node} {before after between : List NodeId}
    {bs cs new : List Branch} {pass pass' : Pass}
    (hsized : ∀ raw ∈ Tree.shorthandsOfAll (Branch.trees bs),
      (Shorthand.ofText raw).fontSize.isSome)
    (hon : ((Branch.idsOfAll bs).forM (visit rootSize)).on pass = (.ok (), pass'))
    (hnew : Rewritten rootSize p node before (cs.map Branch.id ++ after) bs new pass pass')
    (hrest : Visited rootSize p { node with children := between } (before ++ new.map Branch.id)
      after cs pass')
    (hlive : ∀ x ∈ Branch.idsOfAll cs, pass.document.contains x)
    (hp : pass.document.contains p) (hpbs : p ∉ Branch.idsOfAll bs)
    (hnodup : (Branch.idsOfAll (bs ++ cs)).Nodup) :
    Visited rootSize p node before after (bs ++ cs) pass := by
  unfold Visited
  rw [Branch.trees_append, Tree.shorthandsOfAll_append]
  rcases hrest with ⟨hsized', more, pass₂, hon', hmore⟩ | ⟨⟨raw, hraw, hnone⟩, location, pass₂, hon'⟩
  · refine .inl ⟨List.forall_mem_append.mpr ⟨hsized, hsized'⟩, new ++ more, pass₂, ?_,
      hnew.append hmore hlive hp hpbs hnodup⟩
    rw [Branch.idsOfAll_append, forM_append_on _ hon, hon']
  · refine .inr ⟨⟨raw, List.mem_append_right _ hraw, hnone⟩, location, pass₂, ?_⟩
    rw [Branch.idsOfAll_append, forM_append_on _ hon, hon']

/-- Where the pass ends early in some branches, it does not come to those behind them. -/
theorem Visited.of_missing {p : NodeId} {node : Node} {before after : List NodeId}
    {bs : List Branch} (cs : List Branch) {pass pass' : Pass} {location : Option Location}
    (hmissing : ∃ raw ∈ Tree.shorthandsOfAll (Branch.trees bs),
      (Shorthand.ofText raw).fontSize = none)
    (hon : ((Branch.idsOfAll bs).forM (visit rootSize)).on pass =
      (.error (.missingFontSize location), pass')) :
    Visited rootSize p node before after (bs ++ cs) pass := by
  unfold Visited
  rw [Branch.trees_append, Tree.shorthandsOfAll_append, Branch.idsOfAll_append]
  obtain ⟨raw, hraw, hnone⟩ := hmissing
  exact .inr ⟨⟨raw, List.mem_append_left _ hraw, hnone⟩, location, pass',
    forM_append_on_of_error _ hon⟩

/-- No node is twice in branches that are children beside each other. -/
theorem nodup_idsOfAll_of_children {d : Document} (h : d.Linked) {p : NodeId} {node : Node}
    {before after : List NodeId} {bs : List Branch} (hbs : Branch.AllStand d (some p) bs)
    (hp : d.get? p = some node) (hchildren : node.children = before ++ bs.map Branch.id ++ after) :
    (Branch.idsOfAll bs).Nodup := by
  have hids : (bs.map Branch.id).Nodup := by
    have := h.nodup_childrenOf p
    rw [childrenOf_of_get? hp, hchildren, List.append_assoc] at this
    exact (List.nodup_append.mp (List.nodup_append.mp this).2.1).1
  exact h.nodup_idsOfAll hbs hids fun b hb => h.nodup_ids (Branch.allStand_iff.mp hbs b hb)

/-- What one branch comes to is known; so it is for branches beside each other. -/
theorem visited_of_each {bs : List Branch}
    (heach : ∀ b ∈ bs, ∀ {pass : Pass} {p : NodeId} {node : Node} {before after : List NodeId},
      pass.document.Sound → b.Stands pass.document (some p) →
      pass.document.get? p = some node → node.children = before ++ b.id :: after →
      Visited rootSize p node before after [b] pass) :
    ∀ {pass : Pass} {p : NodeId} {node : Node} {before after : List NodeId},
      pass.document.Sound → Branch.AllStand pass.document (some p) bs →
      pass.document.get? p = some node → node.children = before ++ bs.map Branch.id ++ after →
      Visited rootSize p node before after bs pass := by
  induction bs with
  | nil =>
    intro pass p node before after hd hbs hp hchildren
    exact .nil hp (by simpa using hchildren)
  | cons b bs ih =>
    intro pass p node before after hd hbs hp hchildren
    have hnodup : (Branch.idsOfAll ([b] ++ bs)).Nodup :=
      nodup_idsOfAll_of_children hd.linked hbs hp hchildren
    have hfirst := heach b List.mem_cons_self hd hbs.1 hp
      (show _ = before ++ b.id :: (bs.map Branch.id ++ after) by simp [hchildren])
    rw [← List.singleton_append]
    rcases hfirst with ⟨hsized, new, pass₁, hon, hnew⟩ | ⟨hmissing, location, pass₁, hon⟩
    · have hd₁ : pass₁.document.Sound :=
        (keeps_forM (keeps_visit Edit.kept_sound rootSize)).of_on hd hon
      -- what was done for `b` has not touched the branches behind it
      have hbs₁ : Branch.AllStand pass₁.document (some p) bs := by
        refine hnew.sameBut.allStand hbs.2 fun x hx hmem => ?_
        rcases List.mem_cons.mp hmem with rfl | hmem
        · exact hd.linked.parent_notMem_idsOfAll hbs.2 hx
        · rw [Branch.idsOfAll_append, List.nodup_append] at hnodup
          exact hnodup.2.2 x hmem x hx rfl
      have hrest := ih (fun c hc => heach c (List.mem_cons_of_mem _ hc)) hd₁ hbs₁
        hnew.get?_parent
        (show _ = (before ++ new.map Branch.id) ++ bs.map Branch.id ++ after by simp)
      exact .of_rewritten hsized hon hnew hrest hbs.2.contains (contains_of_get? hp)
        (hd.linked.parent_notMem_idsOfAll ⟨hbs.1, trivial⟩) hnodup
    · exact .of_missing bs hmissing hon

/-- A shorthand is expanded, and the nodes below it are gone. -/
theorem visited_of_shorthand {pass : Pass} (hd : pass.document.Sound) {id : NodeId}
    {kind : NodeKind} {span : Option Span} {children : List Branch} {p : NodeId} {node : Node}
    {before after : List NodeId} {raw : String}
    (hb : (Branch.node id kind span children).Stands pass.document (some p))
    (hp : pass.document.get? p = some node) (hchildren : node.children = before ++ id :: after)
    (hraw : kind.shorthand? = some raw) :
    Visited rootSize p node before after [.node id kind span children] pass := by
  have htrees : Branch.trees [.node id kind span children] =
      [.node kind span (Branch.trees children)] := rfl
  have hids := Branch.idsOfAll_singleton_node id kind span children
  have hraws : Tree.shorthandsOfAll (Branch.trees [.node id kind span children]) = [raw] := by
    rw [htrees, Tree.shorthandsOfAll_cons, Tree.shorthands_of_shorthand hraw]
    rfl
  have hvisit : ∀ cause pass₁, ((expandShorthand rootSize id raw).on pass = (cause, pass₁)) →
      (visit rootSize id).on pass = (cause, pass₁) := fun _ _ h => by
    rw [visit_of_shorthand hb.1 hraw, h]
  unfold Visited
  rw [hraws, hids]
  cases hsize : (Shorthand.ofText raw).fontSize with
  | none =>
    exact .inr ⟨⟨raw, List.mem_singleton_self raw, hsize⟩, _, pass,
      on_bind_of_error (hvisit _ _ (expandShorthand_of_isNone hsize id pass))⟩
  | some size =>
    have hblock : node.kind.hasBlock := hd.housed p node hp (by simp [hchildren])
    obtain ⟨new, pass₁, hon, hreplaced, hnew, hreport⟩ :=
      expandShorthand_on hd.linked hb hp hchildren hblock rootSize (by rw [hsize]; rfl)
    refine .inl ⟨by simp [hsize], new, pass₁, ?_, ?_, hreplaced.stands, ?_, ?_, ?_, ?_⟩
    · refine (on_bind_of_ok (hvisit _ _ hon)).trans (forM_visit_of_gone fun x hx => ?_)
      exact hreplaced.gone x (List.mem_cons_of_mem _ hx)
    · exact hreplaced.get?_parent
    · rw [hnew, htrees, Tree.expandedAll_cons, Tree.expanded_of_shorthand hraw,
        Tree.expandedAll_nil, List.append_nil]
      rfl
    · exact fun x hx => .inr (hreplaced.le_serial x hx)
    · rw [hids]
      exact hreplaced.sameBut
    · rw [hreport, hraws]
      simp [counted]

/-- A node that is no shorthand stays above its rewritten children. -/
theorem visited_of_none {pass : Pass} {id : NodeId} {kind : NodeKind} {span : Option Span}
    {children : List Branch} {p : NodeId} {node : Node} {before after : List NodeId}
    (hd : pass.document.Linked)
    (hb : (Branch.node id kind span children).Stands pass.document (some p))
    (hp : pass.document.get? p = some node) (hchildren : node.children = before ++ id :: after)
    (hraw : kind.shorthand? = none)
    (hbelow : Visited rootSize id ⟨kind, some p, children.map Branch.id, span⟩ [] [] children
      pass) :
    Visited rootSize p node before after [.node id kind span children] pass := by
  have htrees : Branch.trees [.node id kind span children] =
      [.node kind span (Branch.trees children)] := rfl
  have hids := Branch.idsOfAll_singleton_node id kind span children
  have hraws : Tree.shorthandsOfAll (Branch.trees [.node id kind span children]) =
      Tree.shorthandsOfAll (Branch.trees children) := by
    rw [htrees, Tree.shorthandsOfAll_cons, Tree.shorthands_of_none hraw]
    simp
  have hvisit : (visit rootSize id).on pass = (.ok (), pass) := by
    refine visit_of_none fun other hn => ?_
    obtain rfl := Option.some.inj (hb.1.symm.trans hn)
    exact hraw
  have hout : p ∉ id :: Branch.idsOfAll children := hd.parent_notMem_ids hb
  unfold Visited at hbelow ⊢
  rw [hraws, hids]
  rcases hbelow with ⟨hsized, new, pass₁, hon, hnew⟩ | ⟨hmissing, location, pass₁, hon⟩
  · refine .inl ⟨hsized, [.node id kind span new], pass₁, ?_, ?_, ⟨⟨?_, hnew.stands⟩, trivial⟩,
      ?_, ?_, ?_, ?_⟩
    · exact (on_bind_of_ok hvisit).trans hon
    · rw [hnew.sameBut.get?_of_contains hout (contains_of_get? hp), hp, List.map_cons,
        List.map_nil, Branch.id, List.append_assoc, List.singleton_append, ← hchildren]
    · rw [hnew.get?_parent, List.nil_append, List.append_nil]
    · rw [htrees, Tree.expandedAll_cons, Tree.expanded_of_none hraw, ← hnew.trees]
      rfl
    · intro x hx
      rw [hids]
      simp only [Branch.idsOfAll_cons, Branch.ids, Branch.idsOfAll_nil, List.append_nil,
        List.mem_cons] at hx ⊢
      rcases hx with rfl | hx
      · exact .inl (.inl rfl)
      · exact (hnew.ids x hx).imp_left .inr
    · rw [hids]
      exact hnew.sameBut.mono fun x hx => .inl (List.mem_cons_of_mem _ hx)
    · rw [hnew.report, hraws]
  · exact .inr ⟨hmissing, location, pass₁, (on_bind_of_ok hvisit).trans hon⟩

theorem visited_of_branch (b : Branch) :
    ∀ {pass : Pass} {p : NodeId} {node : Node} {before after : List NodeId},
      pass.document.Sound → b.Stands pass.document (some p) →
      pass.document.get? p = some node → node.children = before ++ b.id :: after →
      Visited rootSize p node before after [b] pass := by
  induction b using Branch.induction with
  | step id kind span children ih =>
    intro pass p node before after hd hb hp hchildren
    cases hraw : kind.shorthand? with
    | some raw => exact visited_of_shorthand hd hb hp hchildren hraw
    | none =>
      refine visited_of_none hd.linked hb hp hchildren hraw ?_
      exact visited_of_each ih hd hb.2 hb.1 (by simp)

/-- Visiting the nodes of branches that stand beside each other. -/
theorem visited {bs : List Branch} {pass : Pass} {p : NodeId} {node : Node}
    {before after : List NodeId} (hd : pass.document.Sound)
    (hbs : Branch.AllStand pass.document (some p) bs) (hp : pass.document.get? p = some node)
    (hchildren : node.children = before ++ bs.map Branch.id ++ after) :
    Visited rootSize p node before after bs pass :=
  visited_of_each (fun b _ => visited_of_branch b) hd hbs hp hchildren

end Typography.Passing
