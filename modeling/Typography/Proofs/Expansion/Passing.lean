import Typography.Expansion.Pass
import Typography.Proofs.Document.Place

/-!
# What a pass does to one shorthand

`Passing.on` runs a part of a pass. In a sound document the replacement of a
shorthand is never refused: a shorthand without a font size changes nothing, and
any other is replaced at its place by new branches, `Passing.expandShorthand_on`.
-/

namespace Typography

/-- The counts of a report, counted up. -/
def Report.plus (report : Report) (shorthands declarations mediaBlocks : Nat) : Report :=
  ⟨report.shorthands + shorthands, report.declarations + declarations,
    report.mediaBlocks + mediaBlocks⟩

namespace Passing

/-- What a part of a pass answers, and the pass behind it. -/
def on {α : Type} (m : Passing α) (pass : Pass) : Except ExpansionError α × Pass :=
  m.run.run pass

variable {α β : Type} (pass : Pass)

@[simp] theorem on_pure (a : α) : (pure a : Passing α).on pass = (.ok a, pass) := rfl

@[simp] theorem on_throw (cause : ExpansionError) :
    (throw cause : Passing α).on pass = (.error cause, pass) := rfl

@[simp] theorem on_get : (get : Passing Pass).on pass = (.ok pass, pass) := rfl

theorem on_bind (m : Passing α) (f : α → Passing β) :
    (m >>= f).on pass =
      match m.on pass with
      | (.ok a, pass') => (f a).on pass'
      | (.error cause, pass') => (.error cause, pass') := by
  change (ExceptT.bind m f).run.run pass = _
  unfold on ExceptT.bind ExceptT.mk
  simp only [ExceptT.run, StateT.run_bind, ExceptT.bindCont]
  generalize StateT.run m pass = r
  obtain ⟨result, pass'⟩ := r
  cases result <;> rfl

theorem on_bind_of_ok {m : Passing α} {f : α → Passing β} {pass pass' : Pass} {a : α}
    (h : m.on pass = (.ok a, pass')) : (m >>= f).on pass = (f a).on pass' := by
  rw [on_bind, h]

/-- A part of a pass in two steps that is done has done both. -/
theorem on_bind_eq_ok {m : Passing α} {f : α → Passing β} {pass pass' : Pass} {b : β}
    (h : (m >>= f).on pass = (.ok b, pass')) :
    ∃ a between, m.on pass = (.ok a, between) ∧ (f a).on between = (.ok b, pass') := by
  rw [on_bind] at h
  generalize m.on pass = r at h ⊢
  obtain ⟨result, between⟩ := r
  cases result with
  | error cause => cases h
  | ok a => exact ⟨a, between, rfl, h⟩

theorem on_bind_of_error {m : Passing α} {f : α → Passing β} {pass pass' : Pass}
    {cause : ExpansionError} (h : m.on pass = (.error cause, pass')) :
    (m >>= f).on pass = (.error cause, pass') := by
  rw [on_bind, h]

@[simp] theorem on_log (event : Event) :
    (log event).on pass = (.ok (), { pass with events := pass.events.push event }) := rfl

@[simp] theorem on_count (shorthands declarations mediaBlocks : Nat) :
    (count shorthands declarations mediaBlocks).on pass =
      (.ok (), { pass with
        report := pass.report.plus shorthands declarations mediaBlocks }) := rfl

theorem on_edit (e : Edit α) :
    (edit e).on pass =
      ((e.on pass.document).1.mapError .tree,
        { pass with document := (e.on pass.document).2 }) := by
  have hrun : StateT.run (ExceptT.run e) pass.document = e.on pass.document := rfl
  unfold edit
  rw [on_bind_of_ok (on_get pass), hrun]
  generalize e.on pass.document = r
  obtain ⟨result, document⟩ := r
  cases result <;> rfl

theorem on_edit_of_ok {e : Edit α} {a : α} {d' : Document}
    (h : e.on pass.document = (.ok a, d')) :
    (edit e).on pass = (.ok a, { pass with document := d' }) := by
  rw [on_edit, h]
  rfl

theorem on_edit_eq_ok {e : Edit α} {a : α} {pass pass' : Pass}
    (h : (edit e).on pass = (.ok a, pass')) : e.on pass.document = (.ok a, pass'.document) := by
  rw [on_edit] at h
  generalize e.on pass.document = r at h ⊢
  obtain ⟨result, d'⟩ := r
  cases result with
  | error cause => cases h
  | ok b =>
    cases h
    rfl

/-- The part of a pass keeps a property of its document, done or given up. -/
def Keeps (P : Document → Prop) (m : Passing α) : Prop :=
  ∀ pass, P pass.document → P (m.on pass).2.document

variable {P : Document → Prop}

theorem Keeps.of_on {m : Passing α} (hm : m.Keeps P) {pass pass' : Pass}
    {result : Except ExpansionError α} (h : P pass.document) (hon : m.on pass = (result, pass')) :
    P pass'.document := by
  have hkept := hm pass h
  rwa [hon] at hkept

theorem keeps_pure (a : α) : (pure a : Passing α).Keeps P := fun _ h => h

theorem keeps_throw (cause : ExpansionError) : (throw cause : Passing α).Keeps P := fun _ h => h

theorem keeps_get : (get : Passing Pass).Keeps P := fun _ h => h

theorem keeps_log (event : Event) : (log event).Keeps P := fun _ h => h

theorem keeps_count (shorthands declarations mediaBlocks : Nat) :
    (count shorthands declarations mediaBlocks).Keeps P := fun _ h => h

theorem keeps_edit {e : Edit α} (he : e.Keeps P) : (edit e).Keeps P := by
  intro pass h
  rw [on_edit]
  exact he pass.document h

theorem Keeps.bind {m : Passing α} {f : α → Passing β} (hm : m.Keeps P)
    (hf : ∀ a, (f a).Keeps P) : (m >>= f).Keeps P := by
  intro pass h
  have h' := hm pass h
  rw [on_bind]
  generalize m.on pass = r at h' ⊢
  obtain ⟨result, pass'⟩ := r
  cases result with
  | error cause => exact h'
  | ok a => exact hf a pass' h'

theorem keeps_forM {l : List α} {f : α → Passing PUnit} (hf : ∀ a, (f a).Keeps P) :
    (l.forM f).Keeps P := by
  induction l with
  | nil => exact keeps_pure _
  | cons a l ih => exact (hf a).bind fun _ => ih

theorem keeps_mapM {l : List α} {f : α → Passing β} (hf : ∀ a, (f a).Keeps P) :
    (l.mapM f).Keeps P := by
  induction l with
  | nil => exact keeps_pure _
  | cons a l ih =>
    rw [List.mapM_cons]
    exact (hf a).bind fun _ => ih.bind fun _ => keeps_pure _

section

variable (h : Edit.Kept P)
include h

theorem keeps_generate (kind : NodeKind) (span : Option Span) : (generate kind span).Keeps P :=
  (keeps_edit (h.keeps_create kind)).bind fun id =>
    (keeps_edit (h.keeps_setSpan id span)).bind fun _ => keeps_pure id

theorem keeps_replaceShorthand (anchor : NodeId) (span : Option Span) (media : Option String)
    (declarations : List NodeId) :
    (replaceShorthand anchor span media declarations).Keeps P := by
  cases media with
  | some query =>
    refine (keeps_generate h _ span).bind fun block => ?_
    refine (keeps_forM fun id => keeps_edit (h.keeps_append block id)).bind fun _ => ?_
    exact (keeps_edit (h.keeps_replaceWith anchor block)).bind fun _ => keeps_count _ _ _
  | none =>
    refine (keeps_edit (Edit.keeps_ask _)).bind fun node => ?_
    split
    · exact keeps_throw _
    · refine (keeps_forM fun id => keeps_edit (h.keeps_insertBefore _ anchor id)).bind fun _ => ?_
      exact keeps_edit (h.keeps_remove anchor)

theorem keeps_expandShorthand (rootSize : Option String) (anchor : NodeId) (raw : String) :
    (expandShorthand rootSize anchor raw).Keeps P := by
  have hdone : ∀ (node : Node) (values : List (String × String)) (media : Option String),
      (do
        let declarations ← values.mapM fun pair =>
          generate (.declaration pair.1 pair.2 false) node.span
        replaceShorthand anchor node.span media declarations
        log (.expandedShorthand raw (node.span.map Span.start) media declarations.length)
        count 1 declarations.length 0 : Passing Unit).Keeps P := by
    intro node values media
    refine (keeps_mapM fun pair => keeps_generate h _ _).bind fun declarations => ?_
    exact (keeps_replaceShorthand h _ _ _ _).bind fun _ =>
      (keeps_log _).bind fun _ => keeps_count _ _ _
  unfold expandShorthand
  dsimp only
  split
  · refine keeps_get.bind fun pass => (keeps_throw _).bind fun _ => ?_
    exact (keeps_edit (Edit.keeps_ask _)).bind fun node => hdone node _ _
  · exact (keeps_edit (Edit.keeps_ask _)).bind fun node => hdone node _ _

theorem keeps_visit (rootSize : Option String) (id : NodeId) : (visit rootSize id).Keeps P := by
  refine keeps_get.bind fun pass => ?_
  split
  · exact keeps_pure _
  · split
    · exact keeps_pure _
    · exact keeps_expandShorthand h rootSize id _

/-- A whole pass keeps what the edits on the tree keep. -/
theorem keeps_expandAll (options : Options) : (expandAll options).Keeps P := by
  unfold expandAll
  split
  · exact keeps_throw _
  · refine (keeps_edit (Edit.keeps_ask _)).bind fun ids => ?_
    refine (keeps_forM fun id => keeps_visit h _ id).bind fun _ => ?_
    exact keeps_get.bind fun _ => (keeps_log _).bind fun _ => keeps_pure _

end

end Passing

/-- What a pass keeps, it keeps whatever it comes to. -/
theorem Document.expand_keeps {P : Document → Prop} (h : Edit.Kept P) {d : Document} (hd : P d)
    (options : Options) : P (d.expand options).document :=
  Passing.keeps_expandAll h options ⟨d, .zero, #[]⟩ hd

end Typography
