import Typography.Proofs.Expansion.Again

/-!
# What a refused replacement leaves behind

What a shorthand stands for is created first and gets its place then. Where the parent was
made a node that takes no children, its kind overwritten, the place is refused and the new
nodes stay in the document, away from the root. `Document.strays_expand` says that this
is the only refusal that a pass can meet, that it leaves exactly these nodes behind, and
that every other end of a pass leaves none.
-/

namespace Typography

namespace Document

variable {start d d' d'' : Document} {x : NodeId}

/-- The node has come with `d'` and is not below its root. -/
def IsStray (d d' : Document) (x : NodeId) : Prop :=
  d'.contains x ∧ d.contains x = false ∧ ¬ d'.Over .root x

/-- All nodes that have come with `d'` are below its root. -/
def Tidy (d d' : Document) : Prop :=
  ∀ x, d'.contains x → d.contains x ∨ d'.Over .root x

theorem tidy_refl (d : Document) : d.Tidy d := fun _ => .inl

theorem Tidy.not_isStray (h : d.Tidy d') (x : NodeId) : ¬ IsStray d d' x := by
  rintro ⟨hlive, hnew, haway⟩
  rcases h x hlive with hold | hbelow
  · rw [hold] at hnew
    cases hnew
  · exact haway hbelow

/-- What is below the root stays below the root until it is gone. -/
theorem Steady.over_root_of_contains (h : d.Steady d') (ho : d.Over .root x)
    (hlive : d'.contains x) : d'.Over .root x := by
  induction ho with
  | refl => exact Relation.ReflTransGen.refl
  | @tail p x _ hpx ih =>
    have hlt := serial_lt_of_contains (contains_of_parent? hpx)
    have hp : d'.Above p x := (h.old x hlt hlive).2.1.trans hpx
    exact (ih (h.linked.contains_parent hp)).tail hp

theorem Tidy.trans (h : d.Tidy d') (h' : d'.Tidy d'') (hsteady : d'.Steady d'') :
    d.Tidy d'' := by
  intro x hlive
  rcases h' x hlive with hbetween | hbelow
  · exact (h x hbetween).imp_right fun ho => hsteady.over_root_of_contains ho hlive
  · exact .inr hbelow

theorem SameBut.over (h : SameBut [] d d') {a : NodeId} (ho : d.Over a x) : d'.Over a x := by
  induction ho with
  | refl => exact Relation.ReflTransGen.refl
  | @tail p x _ hpx ih =>
    refine ih.tail ?_
    rw [Above, parent?, h.get?_of_contains List.not_mem_nil (contains_of_parent? hpx)]
    exact hpx

/-- Branches that take the place of a node below the root are below the root. -/
theorem Replaced.tidy {b : Branch} {p : NodeId} {node : Node} {before after : List NodeId}
    {new : List Branch} (h : Replaced b p node before after new d d') (hp : d'.Over .root p) :
    d.Tidy d' := by
  intro x hlive
  refine (h.live x hlive).imp_right fun hx => ?_
  obtain ⟨c, -, hstands, hxc⟩ := h.stands.exists_of_mem hx
  exact (hp.tail hstands.parent?).trans (hstands.over_of_mem x hxc)

/-- Fresh branches stand away from the root, and nothing else has come with them. -/
theorem Fresh.isStray_iff {new : List Branch} (h : Fresh new d d') (hd : d.Linked)
    (hd' : d'.Linked) (hstart : start.Tidy d) (hsize : start.slots.size ≤ d.slots.size) :
    IsStray start d' x ↔ x ∈ Branch.idsOfAll new := by
  constructor
  · rintro ⟨hlive, hnew, haway⟩
    rcases h.live x hlive with hold | hx
    · rcases hstart x hold with hstart | hbelow
      · rw [hstart] at hnew
        cases hnew
      · exact absurd (h.sameBut.over hbelow) haway
    · exact hx
  · intro hx
    obtain ⟨b, hb, hstands, hxb⟩ := h.stands.exists_of_mem hx
    refine ⟨hstands.contains x hxb, Bool.eq_false_iff.mpr fun hold => ?_, fun hbelow => ?_⟩
    · have hlt := serial_lt_of_contains hold
      have hle := h.le_serial x hx
      omega
    · have hroot := h.ne_root hd b hb
      rcases Linked.over_total hbelow (hstands.over_of_mem x hxb) with hrb | hbr
      · obtain ⟨q, -, hq⟩ := exists_above_of_over hrb hroot
        cases hstands.parent?.symm.trans hq
      · exact hroot (hd'.eq_root_of_over hbr)

/-- The shorthand `anchor` stands for these trees, and its parent takes no children. -/
def Refuses (rootSize : Option String) (d : Document) (anchor : NodeId) (trees : List Tree) :
    Prop :=
  ∃ node raw p parent, d.get? anchor = some node ∧ node.kind.shorthand? = some raw ∧
    node.parent = some p ∧ d.get? p = some parent ∧ parent.kind.isContainer = false ∧
    trees = Tree.replacement rootSize node.span raw

theorem Refuses.sameBut {rootSize : Option String} {anchor : NodeId} {trees : List Tree}
    (h : Refuses rootSize d anchor trees) (hsame : SameBut [] d d') :
    Refuses rootSize d' anchor trees := by
  obtain ⟨node, raw, p, parent, hn, hraw, hp, hparent, hkind, htrees⟩ := h
  have hget : ∀ {x : NodeId} {other : Node}, d.get? x = some other → d'.get? x = some other :=
    fun hx => (hsame.get?_of_contains List.not_mem_nil (contains_of_get? hx)).trans hx
  exact ⟨node, raw, p, parent, hget hn, hraw, hp, hget hparent, hkind, htrees⟩

/-- What the shorthand `anchor` stands for was created and got no place: these branches stand
alone, and they are all that is stray. -/
structure LeftBehind (rootSize : Option String) (start d : Document) (anchor : NodeId)
    (strays : List Branch) : Prop where
  over_root : start.Over .root anchor
  refuses : Refuses rootSize d anchor (Branch.trees strays)
  ne_nil : strays ≠ []
  stands : Branch.AllStand d none strays
  isStray_iff : ∀ x, IsStray start d x ↔ x ∈ Branch.idsOfAll strays

end Document

namespace Passing

open Document

variable {start : Document} {pass pass' : Pass} {rootSize : Option String}

/-- What a visit of a shorthand that has a parent comes to: it lacks a font size and nothing is
done, it is replaced, or its parent takes no children and the fresh branches stay alone. -/
theorem visit_cases (h : pass.document.Linked) {id p : NodeId} {node : Node}
    (hn : pass.document.get? id = some node) (hp : node.parent = some p) {raw : String}
    (hraw : node.kind.shorthand? = some raw) :
    (∃ location, (visit rootSize id).on pass = (.error (.missingFontSize location), pass)) ∨
      (∃ b new parent before after pass', (visit rootSize id).on pass = (.ok (), pass') ∧
        Replaced b p parent before after new pass.document pass'.document) ∨
      ∃ new pass', (visit rootSize id).on pass = (.error (.tree .notAContainer), pass') ∧
        Fresh new pass.document pass'.document ∧ new ≠ [] ∧
        Refuses rootSize pass.document id (Branch.trees new) := by
  rw [visit_of_shorthand hn hraw]
  cases hsize : (Shorthand.ofText raw).fontSize with
  | none => exact .inl ⟨_, expandShorthand_of_isNone hsize id pass⟩
  | some size =>
    have hsize := Option.isSome_of_eq_some hsize
    obtain ⟨b, rfl, hb⟩ := h.exists_branch hn
    rw [hp] at hb
    have hspan : b.tree.span = node.span := hb.span_eq hn
    obtain ⟨parent, before, after, hparent, hchildren⟩ := h.exists_place hb.parent?
    by_cases htakes : Tree.replacement rootSize b.tree.span raw ≠ [] → parent.kind.isContainer
    · obtain ⟨new, pass', hon, hreplaced, -⟩ :=
        expandShorthand_of_takes h hb hparent hchildren rootSize hsize htakes
      exact .inr (.inl ⟨b, new, _, before, after, pass', hon, hreplaced⟩)
    · obtain ⟨hne, hkind⟩ := Classical.not_imp.mp htakes
      have hkind := Bool.eq_false_iff.mpr hkind
      obtain ⟨new, pass', hon, hfresh, htrees⟩ :=
        expandShorthand_of_refused h hb hparent hkind rootSize hsize hne
      refine .inr (.inr ⟨new, pass', hon, hfresh, ?_, ?_⟩)
      · rintro rfl
        exact hne htrees.symm
      · exact ⟨node, raw, p, parent, hn, hraw, hp, hparent, hkind, hspan ▸ htrees⟩

/-- A visit of a node below the root that is done leaves no stray, and one that is refused leaves
the branches of the shorthand. -/
theorem strays_visit (h : pass.document.Linked) {id : NodeId}
    (hid : pass.document.contains id → ∃ p, pass.document.Over .root p ∧ pass.document.Above p id)
    {result : Except ExpansionError Unit} (hon : (visit rootSize id).on pass = (result, pass')) :
    result = .ok () ∧ pass.document.Tidy pass'.document ∨
      (∃ location, result = .error (.missingFontSize location)) ∧ pass' = pass ∨
      result = .error (.tree .notAContainer) ∧ ∃ new,
        Fresh new pass.document pass'.document ∧ new ≠ [] ∧
        Refuses rootSize pass.document id (Branch.trees new) := by
  cases hraw : pass.document.shorthand? id with
  | none =>
    have hnone : (visit rootSize id).on pass = (.ok (), pass) :=
      visit_of_none fun node hn => (shorthand?_of_get? hn).symm.trans hraw
    rw [hnone] at hon
    cases hon
    exact .inl ⟨rfl, tidy_refl _⟩
  | some raw =>
    obtain ⟨node, hn, hkind⟩ := exists_get?_of_shorthand? hraw
    obtain ⟨p, hbelow, hpid⟩ := hid (contains_of_get? hn)
    have hp : node.parent = some p := by
      rw [← parent?_of_get? hn]
      exact hpid
    rcases visit_cases h hn hp hkind with ⟨location, hmissing⟩ |
      ⟨b, new, parent, before, after, pass₁, hdone, hreplaced⟩ | ⟨new, pass₁, hrefused, hnew⟩
    · rw [hmissing] at hon
      cases hon
      exact .inr (.inl ⟨⟨location, rfl⟩, rfl⟩)
    · have hsteady := (steady_visit h hdone).1
      rw [hdone] at hon
      cases hon
      refine .inl ⟨rfl, hreplaced.tidy ?_⟩
      exact hsteady.over_root_of_contains hbelow (contains_of_get? hreplaced.get?_parent)
    · rw [hrefused] at hon
      cases hon
      exact .inr (.inr ⟨rfl, new, hnew⟩)

/-- A run of visits of nodes below the root ends without strays, or at a refusal. -/
theorem strays_visits {ids : List NodeId} (hids : ∀ x ∈ ids, start.Over .root x ∧ x ≠ .root) :
    ∀ {pass pass' : Pass} {result : Except ExpansionError PUnit}, start.Steady pass.document →
      start.Tidy pass.document → (ids.forM (visit rootSize)).on pass = (result, pass') →
      (∀ refusal, result ≠ .error (.tree refusal)) ∧ start.Tidy pass'.document ∨
        result = .error (.tree .notAContainer) ∧
          ∃ anchor strays, LeftBehind rootSize start pass'.document anchor strays := by
  induction ids with
  | nil =>
    intro pass pass' result hsteady htidy hon
    cases hon
    exact .inl ⟨by simp, htidy⟩
  | cons id ids ih =>
    intro pass pass' result hsteady htidy hon
    obtain ⟨hbelow, hne⟩ := hids id List.mem_cons_self
    have hparent : pass.document.contains id →
        ∃ p, pass.document.Over .root p ∧ pass.document.Above p id := fun hlive =>
      exists_above_of_over (hsteady.over_root_of_contains hbelow hlive) hne
    obtain ⟨first, between, hone⟩ : ∃ first between,
        (visit rootSize id).on pass = (first, between) := ⟨_, _, rfl⟩
    have hlinked : between.document.Linked :=
      (keeps_visit Edit.kept_linked rootSize id).of_on hsteady.linked hone
    rcases strays_visit hsteady.linked hparent hone with ⟨rfl, hclean⟩ |
      ⟨⟨location, rfl⟩, rfl⟩ | ⟨rfl, new, hfresh, hnew, hrefuses⟩
    · have hsteady' := (steady_visit hsteady.linked hone).1
      refine ih (fun x hx => hids x (List.mem_cons_of_mem _ hx)) (hsteady.trans hsteady')
        (htidy.trans hclean hsteady') ?_
      exact (on_bind_of_ok hone).symm.trans hon
    · obtain ⟨rfl, rfl⟩ := Prod.mk.inj ((on_bind_of_error hone).symm.trans hon)
      exact .inl ⟨by simp, htidy⟩
    · obtain ⟨rfl, rfl⟩ := Prod.mk.inj ((on_bind_of_error hone).symm.trans hon)
      exact .inr ⟨rfl, id, new, hbelow, hrefuses.sameBut hfresh.sameBut, hnew, hfresh.stands,
        fun x => hfresh.isStray_iff hsteady.linked hlinked htidy hsteady.size_le⟩

end Passing

namespace Document

variable {d : Document}

/-- Whatever a pass comes to, for every document and all options: it leaves no strays, unless a
tree error ends it. This can only be that a parent takes no children, and then the strays
are what the shorthand below this parent stands for, all of it. -/
theorem strays_expand (h : d.Reached fun _ => True) (options : Options) :
    ((∀ refusal, (d.expand options).result ≠ .error (.tree refusal)) ∧
        ∀ x, ¬ IsStray d (d.expand options).document x) ∨
      (d.expand options).result = .error (.tree .notAContainer) ∧ ∃ anchor strays,
        LeftBehind options.usedRootSize d (d.expand options).document anchor strays := by
  cases hvalid : options.validate with
  | error cause =>
    rw [expand_of_validate_error hvalid]
    exact .inl ⟨by simp, (tidy_refl d).not_isStray⟩
  | ok _ =>
    obtain ⟨ids, hwalk, hids⟩ := h.linked.exists_walk
    obtain ⟨result, pass, hon⟩ : ∃ result pass,
        (ids.forM (Passing.visit options.usedRootSize)).on ⟨d, .zero, #[]⟩ = (result, pass) :=
      ⟨_, _, rfl⟩
    have hend := Passing.strays_visits (fun x hx => (hids x).mp hx) (.refl h.linked)
      (tidy_refl d) hon
    cases result with
    | ok _ =>
      obtain ⟨hresult, hdocument⟩ := expand_of_visits_ok hvalid hwalk hon
      rw [hresult, hdocument]
      rcases hend with ⟨-, htidy⟩ | ⟨hfailed, -⟩
      · exact .inl ⟨by simp, htidy.not_isStray⟩
      · cases hfailed
    | error cause =>
      obtain ⟨hresult, hdocument⟩ := expand_of_visits_error hvalid hwalk hon
      rw [hresult, hdocument]
      rcases hend with ⟨hrefusal, htidy⟩ | ⟨hrefused, hleft⟩
      · refine .inl ⟨fun refusal heq => ?_, htidy.not_isStray⟩
        obtain rfl := Except.error.inj heq
        exact hrefusal refusal rfl
      · obtain rfl := Except.error.inj hrefused
        exact .inr ⟨rfl, hleft⟩

/-- Three shorthands, the second one below a rule that was made a comment. -/
def ofRetypedRule : Document :=
  [.setKind ⟨4⟩ (.comment "c")].foldl Operation.apply (.ofTrees none (Reading.ofText
    "a \x7b type: 1em \x7d b \x7b type: --m 2em / 3 \x7d @type 4em;").trees)

theorem strays_expand_ofRetypedRule :
    (ofRetypedRule.Reached fun _ => True) ∧
      (ofRetypedRule.expand .unset).result = .error (.tree .notAContainer) ∧
      (ofRetypedRule.expand .unset).document.trees.map Tree.kind =
        [.rule "a", .comment "c", .atRule "type" "4em" false] ∧
      ∃ anchor strays, LeftBehind none ofRetypedRule (ofRetypedRule.expand .unset).document
        anchor strays := by
  have hreached : ofRetypedRule.Reached fun _ => True :=
    (Reached.read none "a \x7b type: 1em \x7d b \x7b type: --m 2em / 3 \x7d @type 4em;").foldl
      fun _ _ => trivial
  have hresult : (ofRetypedRule.expand .unset).result = .error (.tree .notAContainer) := by
    decide +kernel
  refine ⟨hreached, hresult, by decide +kernel, ?_⟩
  rcases strays_expand hreached .unset with ⟨hrefusal, -⟩ | ⟨-, hleft⟩
  · exact absurd hresult (hrefusal _)
  · exact hleft

/-- A shorthand below a rule that was made a declaration. -/
def ofRetypedParent : Document :=
  [.setKind ⟨2⟩ (.declaration "p" "v" false)].foldl Operation.apply
    (.ofTrees none (Reading.ofText "a \x7b type: 1em \x7d").trees)

/-- A pass that fails may leave a new node away from the root. -/
theorem strays_expand_ne :
    (ofRetypedParent.Reached fun _ => True) ∧
      (ofRetypedParent.expand .unset).result = .error (.tree .notAContainer) ∧
      ¬ ∀ x, (ofRetypedParent.expand .unset).document.contains x →
        ofRetypedParent.contains x ∨ (ofRetypedParent.expand .unset).document.Over .root x := by
  have hreached : ofRetypedParent.Reached fun _ => True :=
    (Reached.read none "a \x7b type: 1em \x7d").foldl fun _ _ => trivial
  refine ⟨hreached, by decide +kernel, fun hclaim => ?_⟩
  have hnew : ofRetypedParent.contains ⟨4⟩ = false := by decide +kernel
  have hparent : (ofRetypedParent.expand .unset).document.parent? ⟨4⟩ = none := by decide +kernel
  rcases hclaim ⟨4⟩ (by decide +kernel) with hold | hbelow
  · rw [hold] at hnew
    cases hnew
  · obtain ⟨p, -, hp⟩ := exists_above_of_over hbelow (by decide)
    cases hparent.symm.trans hp

end Document

end Typography
