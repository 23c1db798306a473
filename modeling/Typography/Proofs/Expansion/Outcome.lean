import Typography.Proofs.Expansion.Progress
import Typography.Proofs.Expansion.Refinement

/-!
# What an expansion comes to

An expansion is refused for its options, and then nothing is touched; or it stops at the
first outermost shorthand, in the order of the walk, that has no font size, and then those
before it are expanded and the rest is as it was; or it is done. No edit of a pass is ever
refused. `Document.expand_outcome` says this of every document that operations lead to.
-/

namespace Typography

/-- A root size is set that is no size in pixels above zero. -/
def Options.IsRefused (options : Options) : Prop :=
  ∃ size, options.rootSize = some size ∧ size ≠ "" ∧
    (isPixelLength size = false ∨ leadingNumber? size.toList = none ∨
      ∃ x, leadingNumber? size.toList = some x ∧ ¬ 0.0 < x)

theorem Options.isPositive_eq_false_iff {size : String} :
    isPositive size = false ↔ leadingNumber? size.toList = none ∨
      ∃ x, leadingNumber? size.toList = some x ∧ ¬ 0.0 < x := by
  unfold isPositive
  cases leadingNumber? size.toList <;> simp

theorem Options.usedRootSize_eq_some_iff {options : Options} {size : String} :
    options.usedRootSize = some size ↔ options.rootSize = some size ∧ size ≠ "" := by
  simp [usedRootSize, Option.filter_eq_some_iff]

/-- The options that are refused are those with such a root size. -/
theorem Options.exists_validate_eq_error_iff {options : Options} :
    (∃ cause, options.validate = .error cause) ↔ options.IsRefused := by
  have hrefused : options.IsRefused ↔ ∃ size, options.usedRootSize = some size ∧
      (isPixelLength size = false ∨ isPositive size = false) := by
    simp only [IsRefused, usedRootSize_eq_some_iff, isPositive_eq_false_iff, and_assoc]
  rw [hrefused, validate]
  cases options.usedRootSize with
  | none => simp
  | some size =>
    simp only [Option.some.injEq, exists_eq_left', Bool.not_eq_true']
    by_cases hpixels : isPixelLength size = false
    · simp [hpixels]
    · by_cases hpositive : isPositive size = false <;> simp [hpixels, hpositive]

/-- The first element of a list with a property, with what comes before it. -/
theorem exists_first {α : Type} {P : α → Prop} {l : List α} (h : ∃ a ∈ l, P a) :
    ∃ before a behind, l = before ++ a :: behind ∧ P a ∧ ∀ x ∈ before, ¬ P x := by
  classical
  obtain ⟨a, ha, hp⟩ := h
  have hsome : (l.find? (P ·)).isSome := List.find?_isSome.mpr ⟨a, ha, by simpa using hp⟩
  obtain ⟨b, hb⟩ := Option.isSome_iff_exists.mp hsome
  obtain ⟨hpb, before, behind, hl, hbefore⟩ := List.find?_eq_some_iff_append.mp hb
  exact ⟨before, b, behind, hl, by simpa using hpb, by simpa using hbefore⟩

namespace Document

variable {d : Document}

/-- In the order of the walk from the root, `id` is the first outermost shorthand without a
font size, and `before` are the nodes that come before it. -/
def FirstLacking (d : Document) (before : List NodeId) (id : NodeId) : Prop :=
  (∃ behind, d.walk .root = .ok (before ++ id :: behind)) ∧ d.LacksFontSize id ∧
    ∀ x ∈ before, ¬ d.LacksFontSize x

/-- With options that are not refused, an expansion is done, or stops at the first
outermost shorthand without a font size. -/
theorem Sound.expand_stops (h : d.Sound) {options : Options} (hvalid : options.validate = .ok ()) :
    ((∀ x, ¬ d.LacksFontSize x) ∧ ∃ report, (d.expand options).result = .ok report) ∨
      ∃ before id, d.FirstLacking before id ∧
        (d.expand options).result = .error (.missingFontSize (d.location? id)) ∧
        ∃ done new, (∀ x, x ∈ done ↔ x ∈ before ∧ d.IsOutermost x) ∧
          Expanded options.usedRootSize done new d (d.expand options).document := by
  obtain ⟨kind, span, bs, hroot, -⟩ := h.linked.exists_root
  have hwalk := h.linked.walk_eq hroot
  have hnodup := h.linked.nodup_ids hroot
  rw [Branch.ids, List.nodup_cons] at hnodup
  have hmem : ∀ x, d.LacksFontSize x → x ∈ Branch.idsOfAll bs := fun x hx =>
    (h.linked.mem_idsOfAll_iff hroot).mpr ⟨hx.1.below_root, hx.1.ne_root⟩
  have hvisited := Passing.expanded_of_visited options.usedRootSize h hroot.2 hnodup.2
    ⟨d, .zero, #[]⟩ rfl
  by_cases hlacks : ∃ x ∈ Branch.idsOfAll bs, d.LacksFontSize x
  · obtain ⟨before, id, behind, hids, hid, hbefore⟩ := exists_first hlacks
    obtain ⟨done, new, pass, hon, hdone, hexpanded, -⟩ := hvisited before _ hids hbefore
    have hnew : id ∉ done := by
      rw [hids, List.nodup_append] at hnodup
      exact fun hs => hnodup.2.2.2 id ((hdone id).mp hs).1 id List.mem_cons_self rfl
    have hvisit := Passing.visit_of_lacksFontSize (fun s hs => ((hdone s).mp hs).2) hexpanded
      hid hnew
    have hall : ((Branch.idsOfAll bs).forM (Passing.visit options.usedRootSize)).on
        ⟨d, .zero, #[]⟩ = (.error (.missingFontSize (d.location? id)), pass) := by
      rw [hids, Passing.forM_append_on _ hon]
      exact Passing.on_bind_of_error hvisit
    obtain ⟨hresult, hdocument⟩ := expand_of_visits_error hvalid hwalk hall
    refine .inr ⟨before, id, ⟨⟨behind, hids ▸ hwalk⟩, hid, hbefore⟩, hresult, done, new, hdone, ?_⟩
    rwa [hdocument]
  · have hnone : ∀ x, ¬ d.LacksFontSize x := fun x hx => hlacks ⟨x, hmem x hx, hx⟩
    obtain ⟨_, _, pass, hon, -⟩ := hvisited _ [] (List.append_nil _).symm fun x _ => hnone x
    exact .inl ⟨hnone, _, (expand_of_visits_ok hvalid hwalk hon).1⟩

/-- What an expansion comes to, for every document and all options. -/
theorem expand_outcome (h : d.Reached Operation.KeepsKinds) (options : Options) :
    (∀ cause, (d.expand options).result ≠ .error (.tree cause)) ∧
      ((∃ cause, (d.expand options).result = .error (.options cause)) ↔ options.IsRefused) ∧
      (options.IsRefused → (d.expand options).document = d) ∧
      (¬ options.IsRefused →
        ((∃ location, (d.expand options).result = .error (.missingFontSize location)) ↔
          ∃ x, d.LacksFontSize x) ∧
        ((∃ x, d.LacksFontSize x) → ∃ before id, d.FirstLacking before id ∧
          (d.expand options).result = .error (.missingFontSize (d.location? id)) ∧
          ∃ done new, (∀ x, x ∈ done ↔ x ∈ before ∧ d.IsOutermost x) ∧
            Expanded options.usedRootSize done new d (d.expand options).document) ∧
        ((∀ x, ¬ d.LacksFontSize x) → ∃ report, (d.expand options).result = .ok report)) := by
  rw [← Options.exists_validate_eq_error_iff]
  cases hvalid : options.validate with
  | error cause => simp [expand_of_validate_error hvalid]
  | ok _ =>
    have haccepted : ¬ ∃ cause : OptionsError, (Except.ok () : Except _ Unit) = .error cause := by
      simp
    rcases h.sound.expand_stops hvalid with ⟨hnone, report, hdone⟩ | hstopped
    · have hnone' : ¬ ∃ x, d.LacksFontSize x := fun ⟨x, hx⟩ => hnone x hx
      simp [hdone, hnone']
    · obtain ⟨before, id, hfirst, hresult, done, new, hdone, hexpanded⟩ := hstopped
      have hlacks : ∃ x, d.LacksFontSize x := ⟨id, hfirst.2.1⟩
      refine ⟨by simp [hresult], by simp [hresult], fun href => absurd href haccepted, fun _ => ?_⟩
      refine ⟨⟨fun _ => hlacks, fun _ => ⟨_, hresult⟩⟩, fun _ => ?_, fun hnone => ?_⟩
      · exact ⟨before, id, hfirst, hresult, done, new, hdone, hexpanded⟩
      · exact absurd hlacks.choose_spec (hnone _)

/-- Two shorthands, one in the other, a rule with one that has no font size, and one more
behind it. -/
def ofMissingFontSize : Document :=
  [.create (.atRule "type" "--m 1em / 2em" true), .append .root ⟨2⟩,
    .create (.declaration "type" "3em"), .append ⟨2⟩ ⟨3⟩, .create (.rule "a"), .append .root ⟨4⟩,
    .create (.declaration "type" "--m"), .append ⟨4⟩ ⟨5⟩,
    .setSpan ⟨5⟩ (some ⟨⟨2, 5⟩, some ⟨2, 14⟩⟩),
    .create (.declaration "type" "1em 2"), .append .root ⟨6⟩].foldl Operation.apply (.empty none)

theorem expand_outcome_ofMissingFontSize :
    ofMissingFontSize.Reached Operation.KeepsKinds ∧
      (ofMissingFontSize.expand .unset).result = .error (.missingFontSize (some ⟨none, ⟨2, 5⟩⟩)) ∧
      ∃ before id, ofMissingFontSize.FirstLacking before id ∧
        ofMissingFontSize.location? id = some ⟨none, ⟨2, 5⟩⟩ ∧
        ∃ done new, (∀ x, x ∈ done ↔ x ∈ before ∧ ofMissingFontSize.IsOutermost x) ∧
          Expanded none done new ofMissingFontSize (ofMissingFontSize.expand .unset).document := by
  have hreached : ofMissingFontSize.Reached Operation.KeepsKinds :=
    (Reached.empty none).foldl (by simp [Operation.KeepsKinds])
  have hresult : (ofMissingFontSize.expand .unset).result =
      .error (.missingFontSize (some ⟨none, ⟨2, 5⟩⟩)) := by
    decide +kernel
  have haccepted : ¬ Options.unset.IsRefused := by simp [Options.IsRefused, Options.unset]
  obtain ⟨hiff, hstopped, -⟩ := (expand_outcome hreached .unset).2.2.2 haccepted
  obtain ⟨before, id, hfirst, hresult', hexpanded⟩ := hstopped (hiff.mp ⟨_, hresult⟩)
  refine ⟨hreached, hresult, before, id, hfirst, ?_, hexpanded⟩
  rw [hresult] at hresult'
  exact (ExpansionError.missingFontSize.inj (Except.error.inj hresult')).symm

end Document

end Typography
