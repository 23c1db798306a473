import Typography.Proofs.Document.History
import Typography.Proofs.Expansion.Run

/-!
# An expansion rewrites the trees

A pass over a document comes to what the rewriting of its trees says. It ends
early only for options that are refused and for a shorthand without a font size;
otherwise the trees below the root are the rewritten ones, and the report counts
the shorthands that were replaced.
-/

namespace Typography.Document

variable {d : Document}

/-- A branch stands at the root, and it has the trees of the document. -/
theorem Linked.exists_root (h : d.Linked) :
    ∃ kind span bs, (Branch.node .root kind span bs).Stands d none ∧ d.trees = Branch.trees bs := by
  obtain ⟨node, hn⟩ := exists_get?_of_contains h.contains_root
  obtain ⟨⟨id, kind, span, bs⟩, hid, hs⟩ := h.exists_branch hn
  obtain rfl : id = .root := hid
  have hparent : node.parent = none := by
    rw [← parent?_of_get? hn, h.parent?_root]
  rw [hparent] at hs
  exact ⟨kind, span, bs, hs, h.trees_eq hs⟩

theorem expand_of_validate_error {options : Options} {cause : OptionsError}
    (h : options.validate = .error cause) (d : Document) :
    d.expand options = ⟨.error (.options cause), d, []⟩ := by
  unfold expand Passing.expandAll
  rw [h]
  rfl

/-- With options that are not refused, an expansion visits the nodes that the walk meets,
and counts what was done. -/
theorem expand_of_visits_ok {options : Options} (hvalid : options.validate = .ok ())
    {ids : List NodeId} (hwalk : d.walk .root = .ok ids) {pass : Pass}
    (hon : (ids.forM (Passing.visit options.usedRootSize)).on ⟨d, .zero, #[]⟩ = (.ok (), pass)) :
    (d.expand options).result = .ok pass.report ∧
      (d.expand options).document = pass.document := by
  have hall : (Passing.expandAll options).on ⟨d, .zero, #[]⟩ = (.ok pass.report,
      { pass with events := pass.events.push (.expandedDocument pass.report) }) := by
    unfold Passing.expandAll
    rw [hvalid]
    refine (Passing.on_bind_of_ok (Passing.on_edit_of_ok _ (by rw [Edit.on_ask, hwalk]))).trans ?_
    exact Passing.on_bind_of_ok hon
  exact ⟨congrArg Prod.fst hall, congrArg (fun r => r.2.document) hall⟩

/-- A visit that ends early ends the expansion, which leaves the document as it is then. -/
theorem expand_of_visits_error {options : Options} (hvalid : options.validate = .ok ())
    {ids : List NodeId} (hwalk : d.walk .root = .ok ids) {pass : Pass} {cause : ExpansionError}
    (hon : (ids.forM (Passing.visit options.usedRootSize)).on ⟨d, .zero, #[]⟩ =
      (.error cause, pass)) :
    (d.expand options).result = .error cause ∧ (d.expand options).document = pass.document := by
  have hall : (Passing.expandAll options).on ⟨d, .zero, #[]⟩ = (.error cause, pass) := by
    unfold Passing.expandAll
    rw [hvalid]
    refine (Passing.on_bind_of_ok (Passing.on_edit_of_ok _ (by rw [Edit.on_ask, hwalk]))).trans ?_
    exact Passing.on_bind_of_error hon
  exact ⟨congrArg Prod.fst hall, congrArg (fun r => r.2.document) hall⟩

/-- With options that are not refused, an expansion rewrites the trees or misses a
font size. -/
theorem Sound.expand_cases (h : d.Sound) {options : Options} (hvalid : options.validate = .ok ()) :
    (∀ raw ∈ Tree.shorthandsOfAll d.trees, (Shorthand.ofText raw).fontSize.isSome) ∧
        (d.expand options).result =
          .ok (Passing.counted options.usedRootSize .zero (Tree.shorthandsOfAll d.trees)) ∧
        (d.expand options).document.trees =
          Tree.expandedAll options.usedRootSize d.trees ∨
      (∃ raw ∈ Tree.shorthandsOfAll d.trees, (Shorthand.ofText raw).fontSize = none) ∧
        ∃ location, (d.expand options).result = .error (.missingFontSize location) := by
  obtain ⟨kind, span, bs, hroot, htrees⟩ := h.linked.exists_root
  have hwalk := h.linked.walk_eq hroot
  have hvisited : Passing.Visited options.usedRootSize .root
      ⟨kind, none, bs.map Branch.id, span⟩ [] [] bs ⟨d, .zero, #[]⟩ :=
    Passing.visited h hroot.2 hroot.1 (by simp)
  rw [htrees]
  rcases hvisited with ⟨hsized, new, pass, hon, hnew⟩ | ⟨hmissing, location, pass, hon⟩
  · obtain ⟨hresult, hdocument⟩ := expand_of_visits_ok hvalid hwalk hon
    rw [hresult, hdocument]
    refine .inl ⟨hsized, ?_, ?_⟩
    · rw [hnew.report]
    · have hlinked : pass.document.Linked :=
        (Passing.keeps_forM (Passing.keeps_visit Edit.kept_linked _)).of_on h.linked hon
      have hroot' : (Branch.node .root kind span new).Stands pass.document none :=
        ⟨by rw [hnew.get?_parent, List.nil_append, List.append_nil], hnew.stands⟩
      rw [← hnew.trees]
      exact hlinked.trees_eq hroot'
  · exact .inr ⟨hmissing, location, (expand_of_visits_error hvalid hwalk hon).1⟩

/-- An expansion that is done has rewritten the trees. -/
theorem trees_expand (h : d.Reached Operation.KeepsKinds) {options : Options} {report : Report}
    (hdone : (d.expand options).result = .ok report) :
    (d.expand options).document.trees = Tree.expandedAll options.usedRootSize d.trees := by
  cases hvalid : options.validate with
  | error cause =>
    rw [expand_of_validate_error hvalid] at hdone
    simp at hdone
  | ok _ =>
    rcases h.sound.expand_cases hvalid with ⟨-, -, htrees⟩ | ⟨-, location, hmissing⟩
    · exact htrees
    · rw [hmissing] at hdone
      simp at hdone

/-- A shorthand below another one that asks for a media block, and one below a rule. -/
def ofNestedShorthands : Document :=
  [.create (.atRule "type" "--m 1em / 2em" true), .append .root ⟨2⟩,
    .create (.declaration "type" "3em"), .append ⟨2⟩ ⟨3⟩, .create (.rule "a"), .append .root ⟨4⟩,
    .create (.declaration "type" "1em 2"), .append ⟨4⟩ ⟨5⟩].foldl Operation.apply (.empty none)

theorem trees_expand_ofNestedShorthands :
    ofNestedShorthands.Reached Operation.KeepsKinds ∧
      (ofNestedShorthands.expand .unset).result = .ok ⟨2, 4, 1⟩ ∧
      (ofNestedShorthands.expand .unset).document.trees =
        Tree.expandedAll Options.unset.usedRootSize ofNestedShorthands.trees := by
  have hreached : ofNestedShorthands.Reached Operation.KeepsKinds :=
    (Reached.empty none).foldl (by simp [Operation.KeepsKinds])
  have hdone : (ofNestedShorthands.expand .unset).result = .ok ⟨2, 4, 1⟩ := by decide +kernel
  exact ⟨hreached, hdone, trees_expand hreached hdone⟩

end Typography.Document
