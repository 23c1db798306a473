import Mathlib.Logic.Function.Basic
import Typography.Proofs.Expansion.Run

/-!
# A pass on its way

A pass stops at a shorthand without a font size, and what was done before it stays done.
`Document.Expanded` says what a document has become of another one when some of its
outermost shorthands are expanded, for every identifier: what stood at these shorthands
and below them is gone, any other node is the same but for the shorthands among its
children, and new nodes stand in the places of the shorthands only.

A visit of one more outermost shorthand adds it to those that are expanded,
`Passing.expanded_visit`, and visiting the nodes in pre-order expands the outermost ones
among them, `Passing.expanded_of_visited`.
-/

namespace Typography

namespace Branch

variable {d : Document}

/-- What holds in every branch of a list holds in the list: a node comes behind its
parent, unless the parent is the one that all branches are below. -/
theorem parent_before_of_each {parent : Option NodeId} {bs : List Branch}
    (heach : ∀ b ∈ bs, ∀ before x behind, b.ids = before ++ x :: behind →
      d.parent? x = parent ∨ ∃ p ∈ before, d.parent? x = some p) :
    ∀ before x behind, idsOfAll bs = before ++ x :: behind →
      d.parent? x = parent ∨ ∃ p ∈ before, d.parent? x = some p := by
  induction bs with
  | nil => simp
  | cons b bs ih =>
    intro before x behind hids
    have ih := ih fun c hc => heach c (List.mem_cons_of_mem _ hc)
    rw [idsOfAll_cons] at hids
    rcases List.append_eq_append_iff.mp hids with ⟨between, rfl, hrest⟩ | ⟨between, hfirst, hrest⟩
    · rcases ih between x behind hrest with hp | ⟨p, hp, hpx⟩
      · exact .inl hp
      · exact .inr ⟨p, List.mem_append_right _ hp, hpx⟩
    · cases between with
      | nil =>
        rcases ih [] x behind hrest.symm with hp | ⟨p, hp, -⟩
        · exact .inl hp
        · cases hp
      | cons y between =>
        obtain ⟨rfl, -⟩ := List.cons.inj hrest
        exact heach b List.mem_cons_self before x between hfirst

theorem Stands.parent_before {b : Branch} : ∀ {parent : Option NodeId}, b.Stands d parent →
    ∀ before x behind, b.ids = before ++ x :: behind →
      d.parent? x = parent ∨ ∃ p ∈ before, d.parent? x = some p := by
  induction b using Branch.induction with
  | step id kind span children ih =>
    intro parent hb before x behind hids
    rw [ids] at hids
    cases before with
    | nil =>
      obtain ⟨rfl, -⟩ := List.cons.inj hids
      exact .inl hb.parent?
    | cons y before =>
      rw [List.cons_append] at hids
      obtain ⟨rfl, hbelow⟩ := List.cons.inj hids
      have hchildren := allStand_iff.mp hb.2
      rcases parent_before_of_each (fun c hc => ih c hc (hchildren c hc)) before x behind hbelow with
        hp | ⟨p, hp, hpx⟩
      · exact .inr ⟨id, List.mem_cons_self, hp⟩
      · exact .inr ⟨p, List.mem_cons_of_mem _ hp, hpx⟩

/-- In pre-order a node comes behind all nodes over it. -/
theorem AllStand.mem_before {bs : List Branch} (h : d.Linked) (hbs : AllStand d (some .root) bs)
    {a x : NodeId} (ho : d.Over a x) (ha : a ≠ .root) :
    ∀ {before behind : List NodeId}, idsOfAll bs = before ++ x :: behind → a = x ∨ a ∈ before := by
  induction ho with
  | refl => exact fun _ => .inl rfl
  | @tail q x haq hqx ih =>
    intro before behind hids
    have hq : q ∈ before := by
      rcases parent_before_of_each (fun b hb => (allStand_iff.mp hbs b hb).parent_before) before x
        behind hids with hp | ⟨p, hp, hpx⟩
      · obtain rfl : q = .root := Option.some.inj (hqx.symm.trans hp)
        exact absurd (h.eq_root_of_over haq) ha
      · exact Option.some.inj (hqx.symm.trans hpx) ▸ hp
    obtain ⟨front, between, rfl⟩ := List.append_of_mem hq
    have hids' : idsOfAll bs = front ++ q :: (between ++ x :: behind) := by
      rw [hids, List.append_assoc, List.cons_append]
    rcases ih hids' with rfl | hmem
    · exact .inr hq
    · exact .inr (List.mem_append_left _ hmem)

end Branch

namespace Document

/-- The value of a node that is a shorthand. -/
def shorthand? (d : Document) (id : NodeId) : Option String :=
  (d.get? id).bind fun node => node.kind.shorthand?

/-- A shorthand below the root that no other shorthand below the root is over. -/
structure IsOutermost (d : Document) (id : NodeId) : Prop where
  isSome_shorthand? : (d.shorthand? id).isSome
  below_root : d.Over .root id
  ne_root : id ≠ .root
  eq_of_over : ∀ a, d.Over a id → a ≠ .root → (d.shorthand? a).isSome → a = id

/-- An outermost shorthand that cannot be expanded. -/
def LacksFontSize (d : Document) (id : NodeId) : Prop :=
  d.IsOutermost id ∧ ∃ raw, d.shorthand? id = some raw ∧ (Shorthand.ofText raw).fontSize = none

/-- A list of children when each child that is `done` has made room for its branches. -/
def replacing (done : List NodeId) (new : NodeId → List Branch) (children : List NodeId) :
    List NodeId :=
  children.flatMap fun c => if c ∈ done then (new c).map Branch.id else [c]

/-- The document `d'` is what has become of `d` when the shorthands of `done` are
expanded and nothing else has happened. The branches of `new` are what stands in the
place of a shorthand. -/
structure Expanded (rootSize : Option String) (done : List NodeId) (new : NodeId → List Branch)
    (d d' : Document) : Prop where
  file_eq : d'.file = d.file
  gone : ∀ s ∈ done, ∀ x, d.Over s x → d'.get? x = none
  kept : ∀ x node, d.get? x = some node → (∀ s ∈ done, ¬ d.Over s x) →
    d'.get? x = some { node with children := replacing done new node.children }
  stands : ∀ s ∈ done, Branch.AllStand d' (d.parent? s) (new s)
  trees_eq : ∀ s ∈ done, ∀ node raw, d.get? s = some node → node.kind.shorthand? = some raw →
    Branch.trees (new s) = Tree.replacement rootSize node.span raw
  le_serial : ∀ s ∈ done, ∀ x ∈ Branch.idsOfAll (new s), d.slots.size ≤ x.serial
  live : ∀ x, d'.contains x → d.contains x ∨ ∃ s ∈ done, x ∈ Branch.idsOfAll (new s)
  size_le : d.slots.size ≤ d'.slots.size

variable {d d' : Document} {rootSize : Option String} {done : List NodeId}
  {new : NodeId → List Branch}

theorem shorthand?_of_get? {id : NodeId} {node : Node} (h : d.get? id = some node) :
    d.shorthand? id = node.kind.shorthand? := by
  rw [shorthand?, h, Option.bind_some]

theorem exists_get?_of_shorthand? {id : NodeId} {raw : String} (h : d.shorthand? id = some raw) :
    ∃ node, d.get? id = some node ∧ node.kind.shorthand? = some raw :=
  Option.bind_eq_some_iff.mp h

theorem IsOutermost.contains {x : NodeId} (h : d.IsOutermost x) : d.contains x := by
  obtain ⟨raw, hraw⟩ := Option.isSome_iff_exists.mp h.isSome_shorthand?
  obtain ⟨node, hn, -⟩ := exists_get?_of_shorthand? hraw
  exact contains_of_get? hn

theorem IsOutermost.not_over {s x : NodeId} (hs : d.IsOutermost s) (hx : d.IsOutermost x)
    (hne : s ≠ x) : ¬ d.Over s x :=
  fun ho => hne (hx.eq_of_over s ho hs.ne_root hs.isSome_shorthand?)

/-- Nothing is below two outermost shorthands. -/
theorem IsOutermost.not_over_of_over {s x y : NodeId} (hs : d.IsOutermost s)
    (hx : d.IsOutermost x) (hne : s ≠ x) (ho : d.Over x y) : ¬ d.Over s y := by
  intro ho'
  rcases Linked.over_total ho ho' with hxs | hsx
  · exact hx.not_over hs hne.symm hxs
  · exact hs.not_over hx hne hsx

/-- The parent of an outermost shorthand is below none. -/
theorem IsOutermost.not_over_parent (hd : d.Linked) {s x p : NodeId} (hs : d.IsOutermost s)
    (hx : d.IsOutermost x) (hp : d.Above p x) : ¬ d.Over s p := by
  intro ho
  obtain rfl : s = x := hx.eq_of_over s (ho.tail hp) hs.ne_root hs.isSome_shorthand?
  exact hd.not_over_of_above hp ho

theorem contains_of_over {s x : NodeId} (hs : d.contains s) (ho : d.Over s x) : d.contains x := by
  rcases Relation.ReflTransGen.cases_tail ho with rfl | ⟨p, -, hp⟩
  · exact hs
  · exact contains_of_parent? hp

@[simp] theorem replacing_append (children more : List NodeId) :
    replacing done new (children ++ more) =
      replacing done new children ++ replacing done new more :=
  List.flatMap_append

theorem replacing_cons (c : NodeId) (children : List NodeId) :
    replacing done new (c :: children) =
      (if c ∈ done then (new c).map Branch.id else [c]) ++ replacing done new children :=
  List.flatMap_cons

@[simp] theorem replacing_nil (new : NodeId → List Branch) (children : List NodeId) :
    replacing [] new children = children := by
  simp [replacing]

/-- Where a shorthand is no child, it makes no difference whether it is expanded. -/
theorem replacing_update_of_notMem {x : NodeId} {children : List NodeId} (hx : x ∉ children)
    (placed : List Branch) :
    replacing (x :: done) (Function.update new x placed) children =
      replacing done new children := by
  refine List.flatMap_congr fun c hc => ?_
  have hne : c ≠ x := fun heq => hx (heq ▸ hc)
  simp only [List.mem_cons, hne, false_or, Function.update_of_ne hne]

theorem replacing_update_of_mem {x : NodeId} {children l r : List NodeId}
    (hchildren : children = l ++ x :: r) (hnodup : children.Nodup) (placed : List Branch) :
    replacing (x :: done) (Function.update new x placed) children =
      replacing done new l ++ placed.map Branch.id ++ replacing done new r := by
  rw [hchildren, List.nodup_append, List.nodup_cons] at hnodup
  have hl : x ∉ l := fun hmem => hnodup.2.2 x hmem x List.mem_cons_self rfl
  rw [hchildren, replacing_append, replacing_cons, replacing_update_of_notMem hl,
    replacing_update_of_notMem hnodup.2.1.1, if_pos List.mem_cons_self, Function.update_self,
    List.append_assoc]

/-- What holds of each shorthand and its branches holds when one more gets branches. -/
theorem forall_mem_cons_update {P : NodeId → List Branch → Prop} {x : NodeId}
    {placed : List Branch} (hnew : x ∉ done) (hx : P x placed) (h : ∀ s ∈ done, P s (new s)) :
    ∀ s ∈ x :: done, P s (Function.update new x placed s) := by
  intro s hs
  rcases List.mem_cons.mp hs with rfl | hs
  · rwa [Function.update_self]
  · have hne : s ≠ x := fun heq => hnew (heq ▸ hs)
    rw [Function.update_of_ne hne]
    exact h s hs

theorem Expanded.refl (rootSize : Option String) (new : NodeId → List Branch) (d : Document) :
    Expanded rootSize [] new d d where
  file_eq := rfl
  gone := by simp
  kept := by
    intro x node hx _
    rw [hx, replacing_nil]
  stands := by simp
  trees_eq := by simp
  le_serial := by simp
  live := fun _ => .inl
  size_le := Nat.le_refl _

namespace Expanded

variable (h : Expanded rootSize done new d d')
include h

theorem parent?_eq {x : NodeId} (hx : d.contains x) (hkept : ∀ s ∈ done, ¬ d.Over s x) :
    d'.parent? x = d.parent? x := by
  obtain ⟨node, hn⟩ := exists_get?_of_contains hx
  rw [parent?_of_get? hn, parent?_of_get? (h.kept x node hn hkept)]

theorem shorthand?_eq {x : NodeId} (hx : d.contains x) (hkept : ∀ s ∈ done, ¬ d.Over s x) :
    d'.shorthand? x = d.shorthand? x := by
  obtain ⟨node, hn⟩ := exists_get?_of_contains hx
  rw [shorthand?_of_get? hn, shorthand?_of_get? (h.kept x node hn hkept)]

/-- The nodes over one that was kept were kept too. -/
theorem over_after {x y : NodeId} (ho : d.Over x y) (hkept : ∀ s ∈ done, ¬ d.Over s y) :
    d'.Over x y := by
  induction ho with
  | refl => exact Relation.ReflTransGen.refl
  | @tail q y _ hqy ih =>
    refine (ih fun s hs hsq => hkept s hs (hsq.tail hqy)).tail ?_
    exact (h.parent?_eq (contains_of_parent? hqy) hkept).trans hqy

theorem over_of_over (hd : d.Linked) {x y : NodeId} (ho : d'.Over x y) (hy : d.contains y)
    (hkept : ∀ s ∈ done, ¬ d.Over s y) : d.Over x y := by
  induction ho with
  | refl => exact Relation.ReflTransGen.refl
  | @tail q y _ hqy ih =>
    have hqy' : d.Above q y := (h.parent?_eq hy hkept).symm.trans hqy
    exact (ih (hd.contains_parent hqy') fun s hs hsq => hkept s hs (hsq.tail hqy')).tail hqy'

theorem contains_iff {x : NodeId} (hx : d.contains x) :
    d'.contains x ↔ ∀ s ∈ done, ¬ d.Over s x := by
  constructor
  · intro hlive s hs ho
    simp [Document.contains, h.gone s hs x ho] at hlive
  · intro hkept
    obtain ⟨node, hn⟩ := exists_get?_of_contains hx
    exact contains_of_get? (h.kept x node hn hkept)

end Expanded

namespace Expanded

variable (h : Expanded rootSize done new d d') (hd : d.Linked)
  (hdone : ∀ s ∈ done, d.IsOutermost s) {x : NodeId} (hx : d.IsOutermost x) (hnew : x ∉ done)
include h hd hdone hx hnew

omit h hd in
theorem not_over_of_notMem : ∀ s ∈ done, ¬ d.Over s x :=
  fun s hs => (hdone s hs).not_over hx fun heq => hnew (heq ▸ hs)

/-- What stands in the place of a shorthand is not below another one. -/
theorem not_over_of_mem {s y : NodeId} (hs : s ∈ done) (hy : y ∈ Branch.idsOfAll (new s)) :
    ¬ d'.Over x y := by
  intro hxy
  obtain ⟨c, hc, hstands, hyc⟩ := (h.stands s hs).exists_of_mem hy
  have hfresh : ¬ d.contains c.id := fun hlive => by
    have hlt := serial_lt_of_contains hlive
    have hle := h.le_serial s hs c.id (Branch.id_mem_idsOfAll hc)
    omega
  rcases Linked.over_total hxy (hstands.over_of_mem y hyc) with hxc | hcx
  · rcases Relation.ReflTransGen.cases_tail hxc with heq | ⟨q, hxq, hqc⟩
    · exact hfresh (heq ▸ hx.contains)
    · have hqs : d.Above q s := hstands.parent?.symm.trans hqc
      have hq : ∀ t ∈ done, ¬ d.Over t q := fun t ht =>
        (hdone t ht).not_over_parent hd (hdone s hs) hqs
      have hxs : d.Over x s :=
        (h.over_of_over hd hxq (hd.contains_parent hqs) hq).tail hqs
      exact hx.not_over (hdone s hs) (fun heq => hnew (heq ▸ hs)) hxs
  · have ho := h.over_of_over hd hcx hx.contains (not_over_of_notMem hdone hx hnew)
    exact hfresh (hd.contains_of_over ho hx.contains)

/-! ### One more shorthand

New branches take the place of `x`, the child of `p` between `l` and `r`. -/

variable (hd' : d'.Linked) {d'' : Document} {b : Branch} {p : NodeId} {node : Node}
  {l r : List NodeId} {placed : List Branch} (hb : b.Stands d' (some p)) (hbx : b.id = x)
  (hp : d.get? p = some node) (hchildren : node.children = l ++ x :: r)
  (hreplaced : Replaced b p { node with children := replacing done new node.children }
    (replacing done new l) (replacing done new r) placed d' d'')
include hb hbx hp hreplaced

omit hd hp in
include hd' in
theorem gone_replace (hp' : d'.contains p) :
    ∀ s ∈ x :: done, ∀ y, d.Over s y → d''.get? y = none := by
  intro s hs y hsy
  rcases List.mem_cons.mp hs with rfl | hs
  · have hsy' := h.over_after hsy fun t ht =>
      (hdone t ht).not_over_of_over hx (fun heq => hnew (heq ▸ ht)) hsy
    exact hreplaced.gone y (hd'.mem_ids_of_over hb (hbx ▸ hsy'))
  · have hy := h.gone s hs y hsy
    have hlive := contains_of_over (hdone s hs).contains hsy
    have htouched : y ∉ p :: b.ids := by
      intro hmem
      have hcontains : d'.contains y := by
        rcases List.mem_cons.mp hmem with rfl | hmem
        · exact hp'
        · exact hb.contains y hmem
      simp [contains, hy] at hcontains
    rw [hreplaced.sameBut.get?_eq y htouched
      (Nat.lt_of_lt_of_le (serial_lt_of_contains hlive) h.size_le), hy]

omit hdone hx hnew in
include hchildren in
theorem kept_replace : ∀ z other, d.get? z = some other → (∀ s ∈ x :: done, ¬ d.Over s z) →
    d''.get? z = some { other with
      children := replacing (x :: done) (Function.update new x placed) other.children } := by
  intro z other hz hkept
  rw [List.forall_mem_cons] at hkept
  by_cases hzp : z = p
  · subst hzp
    obtain rfl : other = node := Option.some.inj (hz.symm.trans hp)
    have hnodup := hd.nodup_childrenOf z
    rw [childrenOf_of_get? hp] at hnodup
    rw [hreplaced.get?_parent, replacing_update_of_mem hchildren hnodup]
  · have hpx : d.parent? x = some p := by
      rw [← hd.mem_childrenOf_iff, childrenOf_of_get? hp, hchildren]
      simp
    have hxc : x ∉ other.children := by
      rw [← childrenOf_of_get? hz, hd.mem_childrenOf_iff]
      exact fun heq => hzp (Option.some.inj (heq.symm.trans hpx))
    have hz' := h.kept z other hz hkept.2
    have hzb : z ∉ p :: b.ids := by
      rw [List.mem_cons, not_or]
      refine ⟨hzp, fun hmem => hkept.1 ?_⟩
      exact h.over_of_over hd (hbx ▸ hb.over_of_mem z hmem) (contains_of_get? hz) hkept.2
    rw [hreplaced.sameBut.get?_of_contains hzb (contains_of_get? hz'), hz',
      replacing_update_of_notMem hxc]

theorem stands_replace (hpx : d.Above p x) :
    ∀ s ∈ x :: done, Branch.AllStand d'' (d.parent? s) (Function.update new x placed s) := by
  refine forall_mem_cons_update hnew ?_ fun s hs => ?_
  · rw [show d.parent? x = some p from hpx]
    exact hreplaced.stands
  · refine hreplaced.sameBut.allStand (h.stands s hs) fun y hy hmem => ?_
    rcases List.mem_cons.mp hmem with rfl | hmem
    · have hlt := serial_lt_of_contains (contains_of_get? hp)
      have hle := h.le_serial s hs y hy
      omega
    · exact h.not_over_of_mem hd hdone hx hnew hs hy (hbx ▸ hb.over_of_mem y hmem)

include hd' hchildren in
/-- One more shorthand is expanded when new branches take its place. -/
theorem replace (hfile : d''.file = d'.file)
    (htrees : ∀ node raw, d.get? x = some node → node.kind.shorthand? = some raw →
      Branch.trees placed = Tree.replacement rootSize node.span raw) :
    Expanded rootSize (x :: done) (Function.update new x placed) d d'' := by
  have hpx : d.Above p x := by
    rw [Above, ← hd.mem_childrenOf_iff, childrenOf_of_get? hp, hchildren]
    simp
  have hp' : d'.contains p :=
    (h.contains_iff (contains_of_get? hp)).mpr fun s hs => (hdone s hs).not_over_parent hd hx hpx
  exact {
    file_eq := hfile.trans h.file_eq
    gone := h.gone_replace hdone hx hnew hd' hb hbx hreplaced hp'
    kept := h.kept_replace hd hb hbx hp hchildren hreplaced
    stands := h.stands_replace hd hdone hx hnew hb hbx hp hreplaced hpx
    trees_eq := forall_mem_cons_update
      (P := fun s bs => ∀ node raw, d.get? s = some node → node.kind.shorthand? = some raw →
        Branch.trees bs = Tree.replacement rootSize node.span raw) hnew htrees h.trees_eq
    le_serial := forall_mem_cons_update
      (P := fun _ bs => ∀ y ∈ Branch.idsOfAll bs, d.slots.size ≤ y.serial) hnew
      (fun y hy => Nat.le_trans h.size_le (hreplaced.le_serial y hy)) h.le_serial
    live := by
      intro y hy
      rcases hreplaced.live y hy with hy | hy
      · refine (h.live y hy).imp_right ?_
        rintro ⟨s, hs, hmem⟩
        have hne : s ≠ x := fun heq => hnew (heq ▸ hs)
        exact ⟨s, List.mem_cons_of_mem _ hs, by rwa [Function.update_of_ne hne]⟩
      · exact .inr ⟨x, List.mem_cons_self, by rwa [Function.update_self]⟩
    size_le := Nat.le_trans h.size_le hreplaced.sameBut.size_le }

end Expanded

/-- The edits of a pass keep the file. -/
theorem kept_sound_file (file : Option String) : Edit.Kept fun d => d.Sound ∧ d.file = file where
  linked _ hd := hd.1.linked
  push d kind hd := ⟨Edit.kept_sound.push d kind hd.1, hd.2⟩
  setSpan d id span hd := ⟨Edit.kept_sound.setSpan d id span hd.1, hd.2⟩
  move d p index c hd hi hindex :=
    ⟨Edit.kept_sound.move d p index c hd.1 hi hindex, (file_detach d c).trans hd.2⟩
  prune d id kind span children parent hd hroot hs :=
    ⟨Edit.kept_sound.prune d id kind span children parent hd.1 hroot hs,
      (file_eraseAll _ _).trans ((file_detach d id).trans hd.2)⟩

/-- Over a shorthand below the root there is an outermost one. -/
theorem Linked.exists_isOutermost (h : d.Linked) (x : NodeId) (hbelow : d.Over .root x)
    (hroot : x ≠ .root) (hraw : (d.shorthand? x).isSome) : ∃ s, d.IsOutermost s ∧ d.Over s x := by
  induction x using h.grounded.transGen.induction with
  | _ x ih =>
    by_cases hx : d.IsOutermost x
    · exact ⟨x, hx, Relation.ReflTransGen.refl⟩
    · obtain ⟨a, hax, ha, hshort, hne⟩ : ∃ a, d.Over a x ∧ a ≠ .root ∧
          (d.shorthand? a).isSome ∧ a ≠ x := by
        by_contra hnone
        refine hx ⟨hraw, hbelow, hroot, fun a hax ha hshort => ?_⟩
        by_contra hne
        exact hnone ⟨a, hax, ha, hshort, hne⟩
      have habelow : d.Over .root a := by
        rcases Linked.over_total hbelow hax with hroota | haroot
        · exact hroota
        · exact absurd (h.eq_root_of_over haroot) ha
      have htrans : Relation.TransGen d.Above a x := by
        rcases Relation.reflTransGen_iff_eq_or_transGen.mp hax with heq | htrans
        · exact absurd heq.symm hne
        · exact htrans
      obtain ⟨s, hs, hsa⟩ := ih a htrans habelow ha hshort
      exact ⟨s, hs, hsa.trans hax⟩

/-- What a walk from the root meets is below the root. -/
theorem Linked.over_root_of_mem (h : d.Linked) {bs : List Branch}
    (hbs : Branch.AllStand d (some .root) bs) {x : NodeId} (hx : x ∈ Branch.idsOfAll bs) :
    d.Over .root x ∧ x ≠ .root := by
  obtain ⟨b, -, hstands, hxb⟩ := hbs.exists_of_mem hx
  refine ⟨Relation.ReflTransGen.head hstands.parent? (hstands.over_of_mem x hxb), ?_⟩
  rintro rfl
  exact h.parent_notMem_ids hstands hxb

/-- The branches below the root hold the nodes below the root. -/
theorem Linked.mem_idsOfAll_iff (h : d.Linked) {kind : NodeKind} {span : Option Span}
    {bs : List Branch} (hroot : (Branch.node .root kind span bs).Stands d none) {x : NodeId} :
    x ∈ Branch.idsOfAll bs ↔ d.Over .root x ∧ x ≠ .root := by
  refine ⟨h.over_root_of_mem hroot.2, fun ⟨hx, hne⟩ => ?_⟩
  exact (List.mem_cons.mp (h.mem_ids_of_over hroot hx)).resolve_left hne

end Document

namespace Passing

open Document

variable {d : Document} {rootSize : Option String} {done : List NodeId}
  {new : NodeId → List Branch} {pass : Pass}

/-- A visit of one more outermost shorthand expands it. -/
theorem expanded_visit (hd : d.Linked) (hdone : ∀ s ∈ done, d.IsOutermost s)
    (h : Expanded rootSize done new d pass.document) (hsound : pass.document.Sound) {x : NodeId}
    (hx : d.IsOutermost x) (hnew : x ∉ done) {raw : String} (hraw : d.shorthand? x = some raw)
    (hsize : (Shorthand.ofText raw).fontSize.isSome) :
    ∃ placed pass', (visit rootSize x).on pass = (.ok (), pass') ∧
      Expanded rootSize (x :: done) (Function.update new x placed) d pass'.document := by
  have hkept := Expanded.not_over_of_notMem hdone hx hnew
  obtain ⟨p, -, hpx⟩ := exists_above_of_over hx.below_root hx.ne_root
  obtain ⟨node, l, r, hp, hchildren⟩ := hd.exists_place hpx
  obtain ⟨anchor, hanchor, hkind⟩ := exists_get?_of_shorthand? hraw
  have hanchor' := h.kept x anchor hanchor hkept
  have hp' := h.kept p node hp fun s hs => (hdone s hs).not_over_parent hd hx hpx
  have hchildren' : replacing done new node.children =
      replacing done new l ++ x :: replacing done new r := by
    rw [hchildren, replacing_append, replacing_cons, if_neg hnew, List.singleton_append]
  have hblock : node.kind.hasBlock :=
    hsound.housed p { node with children := replacing done new node.children } hp'
      (by simp [hchildren'])
  obtain ⟨b, hbx, hb⟩ := hsound.linked.exists_branch hanchor'
  have hparent : anchor.parent = some p := by
    rw [← parent?_of_get? hanchor]
    exact hpx
  rw [hparent] at hb
  obtain ⟨placed, pass', hon, hreplaced, htrees, -⟩ :=
    expandShorthand_on hsound.linked hb hp' (hbx ▸ hchildren') hblock rootSize hsize
  have hspan : b.tree.span = anchor.span := by
    rw [← hbx] at hanchor'
    rw [hb.span_eq hanchor']
  have hfile : pass'.document.file = pass.document.file :=
    ((keeps_expandShorthand (kept_sound_file pass.document.file) rootSize b.id raw).of_on
      ⟨hsound, rfl⟩ hon).2
  refine ⟨placed, pass', ?_, ?_⟩
  · rw [visit_of_shorthand hanchor' hkind, ← hbx, hon]
  · refine h.replace hd hdone hx hnew hsound.linked hb hbx hp hchildren hreplaced hfile ?_
    intro other raw' hother hraw'
    obtain rfl : other = anchor := Option.some.inj (hother.symm.trans hanchor)
    obtain rfl : raw' = raw := Option.some.inj (hraw'.symm.trans hkind)
    rw [htrees, hspan]

/-- A node that is no shorthand, or below one that was expanded, is passed over. -/
theorem visit_of_covered (h : Expanded rootSize done new d pass.document) {x : NodeId}
    (hx : d.contains x)
    (hcovered : (d.shorthand? x).isSome → ∃ s ∈ done, d.Over s x) :
    (visit rootSize x).on pass = (.ok (), pass) := by
  refine visit_of_none fun node hn => ?_
  have hkept := (h.contains_iff hx).mp (contains_of_get? hn)
  have hnone : d.shorthand? x = none := by
    by_contra hsome
    obtain ⟨s, hs, ho⟩ := hcovered (Option.isSome_iff_ne_none.mpr hsome)
    exact hkept s hs ho
  rw [← shorthand?_of_get? hn, h.shorthand?_eq hx hkept, hnone]

/-- One more node is visited that is an outermost shorthand. -/
theorem mem_cons_iff_of_isOutermost {before : List NodeId} {x : NodeId}
    (hdone : ∀ y, y ∈ done ↔ y ∈ before ∧ d.IsOutermost y) (hx : d.IsOutermost x) (y : NodeId) :
    y ∈ x :: done ↔ y ∈ before ++ [x] ∧ d.IsOutermost y := by
  rw [List.mem_cons, hdone, List.mem_append, List.mem_singleton]
  constructor
  · rintro (rfl | ⟨hy, hy'⟩)
    · exact ⟨.inr rfl, hx⟩
    · exact ⟨.inl hy, hy'⟩
  · rintro ⟨hy | rfl, hy'⟩
    · exact .inr ⟨hy, hy'⟩
    · exact .inl rfl

/-- One more node is visited that is no outermost shorthand. -/
theorem mem_iff_of_not_isOutermost {before : List NodeId} {x : NodeId}
    (hdone : ∀ y, y ∈ done ↔ y ∈ before ∧ d.IsOutermost y) (hx : ¬ d.IsOutermost x) (y : NodeId) :
    y ∈ done ↔ y ∈ before ++ [x] ∧ d.IsOutermost y := by
  rw [hdone, List.mem_append, List.mem_singleton]
  constructor
  · exact fun ⟨hy, hy'⟩ => ⟨.inl hy, hy'⟩
  · rintro ⟨hy | rfl, hy'⟩
    · exact ⟨hy, hy'⟩
    · exact absurd hy' hx

/-- Visiting the nodes that come first expands the outermost shorthands among them, unless
one of these cannot be expanded. -/
theorem expanded_of_visited (rootSize : Option String) (hd : d.Sound) {bs : List Branch}
    (hbs : Branch.AllStand d (some .root) bs) (hnodup : (Branch.idsOfAll bs).Nodup)
    (pass : Pass) (hpass : pass.document = d) (before : List NodeId) :
    ∀ behind, Branch.idsOfAll bs = before ++ behind → (∀ x ∈ before, ¬ d.LacksFontSize x) →
      ∃ done new pass', (before.forM (visit rootSize)).on pass = (.ok (), pass') ∧
        (∀ x, x ∈ done ↔ x ∈ before ∧ d.IsOutermost x) ∧
        Expanded rootSize done new d pass'.document ∧ pass'.document.Sound := by
  induction before using List.reverseRecOn with
  | nil =>
    intro behind _ _
    subst hpass
    exact ⟨[], fun _ => [], pass, rfl, by simp, .refl rootSize _ _, hd⟩
  | append_singleton before x ih =>
    intro behind hids hsized
    rw [List.append_assoc, List.singleton_append] at hids
    obtain ⟨done, new, pass₁, hon, hdone, hexpanded, hsound⟩ :=
      ih (x :: behind) hids fun y hy => hsized y (List.mem_append_left _ hy)
    have hout : ∀ s ∈ done, d.IsOutermost s := fun s hs => ((hdone s).mp hs).2
    have hmem : x ∈ Branch.idsOfAll bs := by simp [hids]
    have hlive := hbs.contains x hmem
    obtain ⟨hbelow, hroot⟩ := hd.linked.over_root_of_mem hbs hmem
    by_cases hx : d.IsOutermost x
    · obtain ⟨raw, hraw⟩ := Option.isSome_iff_exists.mp hx.isSome_shorthand?
      have hsize : (Shorthand.ofText raw).fontSize.isSome := by
        rw [Option.isSome_iff_ne_none]
        exact fun hnone => hsized x (by simp) ⟨hx, raw, hraw, hnone⟩
      have hnew : x ∉ done := by
        rw [hids, List.nodup_append] at hnodup
        exact fun hs => hnodup.2.2 x ((hdone x).mp hs).1 x List.mem_cons_self rfl
      obtain ⟨placed, pass₂, hon₂, hexpanded₂⟩ :=
        expanded_visit hd.linked hout hexpanded hsound hx hnew hraw hsize
      have hsound₂ : pass₂.document.Sound :=
        (keeps_visit Edit.kept_sound rootSize x).of_on hsound hon₂
      refine ⟨x :: done, _, pass₂, ?_, mem_cons_iff_of_isOutermost hdone hx, hexpanded₂, hsound₂⟩
      rw [forM_append_on _ hon]
      exact on_bind_of_ok hon₂
    · have hvisit : (visit rootSize x).on pass₁ = (.ok (), pass₁) := by
        refine visit_of_covered hexpanded hlive fun hraw => ?_
        obtain ⟨s, hs, hsx⟩ := hd.linked.exists_isOutermost x hbelow hroot hraw
        rcases hbs.mem_before hd.linked hsx hs.ne_root hids with rfl | hsmem
        · exact absurd hs hx
        · exact ⟨s, (hdone s).mpr ⟨hsmem, hs⟩, hsx⟩
      refine ⟨done, new, pass₁, ?_, mem_iff_of_not_isOutermost hdone hx, hexpanded, hsound⟩
      rw [forM_append_on _ hon]
      exact on_bind_of_ok hvisit

/-- A visit of a shorthand that cannot be expanded ends the pass and changes nothing. -/
theorem visit_of_lacksFontSize (hdone : ∀ s ∈ done, d.IsOutermost s)
    (h : Expanded rootSize done new d pass.document) {x : NodeId} (hx : d.LacksFontSize x)
    (hnew : x ∉ done) :
    (visit rootSize x).on pass = (.error (.missingFontSize (d.location? x)), pass) := by
  obtain ⟨hout, raw, hraw, hnone⟩ := hx
  obtain ⟨node, hn, hkind⟩ := exists_get?_of_shorthand? hraw
  have hn' := h.kept x node hn (Expanded.not_over_of_notMem hdone hout hnew)
  have hlocation : pass.document.location? x = d.location? x := by
    unfold location?
    rw [hn, hn', h.file_eq]
    rfl
  rw [visit_of_shorthand hn' hkind, expandShorthand_of_isNone hnone, hlocation]

end Passing

end Typography
