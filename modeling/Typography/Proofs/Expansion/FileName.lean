import Typography.Proofs.Document.FileName
import Typography.Proofs.Expansion.Replacement

/-!
# A pass over a document of another name

A pass over the same nodes under another name does the same, and comes to the same result,
except that the error for a shorthand without a font size names the other file. This is
`Passing.CarriesName`, which every part of a pass has.
-/

namespace Typography

/-- The same error, told of a stylesheet in another file. -/
def ExpansionError.inFile (file : Option String) : ExpansionError → ExpansionError
  | options cause => options cause
  | missingFontSize location => missingFontSize (location.map (·.inFile file))
  | tree cause => tree cause

/-- The same pass over a document of another name. -/
def Pass.inFile (pass : Pass) (file : Option String) : Pass :=
  { pass with document := pass.document.inFile file }

/-- The result of an expansion, told of a stylesheet in another file. -/
abbrev retold {α : Type} (file : Option String) (result : Except ExpansionError α) :
    Except ExpansionError α :=
  result.mapError (·.inFile file)

namespace Passing

variable {α β : Type}

/-- The part of a pass does the same with a document of another name, whose name is then told
in errors. -/
def CarriesName (m : Passing α) : Prop :=
  ∀ pass file, m.on (pass.inFile file) = (retold file (m.on pass).1, (m.on pass).2.inFile file)

theorem carriesName_pure (a : α) : (pure a : Passing α).CarriesName := fun _ _ => rfl

theorem carriesName_throw {cause : ExpansionError} (h : ∀ file, cause.inFile file = cause) :
    (throw cause : Passing α).CarriesName := by
  intro pass file
  rw [on_throw, on_throw, retold, Except.mapError, h]

theorem CarriesName.bind {m : Passing α} {f : α → Passing β} (hm : m.CarriesName)
    (hf : ∀ a, (f a).CarriesName) : (m >>= f).CarriesName := by
  intro pass file
  rw [on_bind, on_bind, hm pass file]
  generalize m.on pass = r
  obtain ⟨result, pass'⟩ := r
  cases result with
  | error cause => rfl
  | ok a => exact hf a pass' file

/-- A part that looks at the pass must not look at the name. -/
theorem carriesName_get_bind {f : Pass → Passing α} (hf : ∀ pass, (f pass).CarriesName)
    (hname : ∀ pass file, f (pass.inFile file) = f pass) : (get >>= f).CarriesName := by
  intro pass file
  rw [on_bind_of_ok (on_get _), on_bind_of_ok (on_get _), hname]
  exact hf pass pass file

theorem carriesName_log (event : Event) : (log event).CarriesName := fun _ _ => rfl

theorem carriesName_count (shorthands declarations mediaBlocks : Nat) :
    (count shorthands declarations mediaBlocks).CarriesName := fun _ _ => rfl

theorem carriesName_edit {e : Edit α} (he : e.IgnoresName) : (edit e).CarriesName := by
  intro pass file
  rw [on_edit, on_edit, Pass.inFile, he]
  generalize e.on pass.document = r
  obtain ⟨result, d'⟩ := r
  cases result <;> rfl

theorem carriesName_forM {l : List α} {f : α → Passing PUnit} (hf : ∀ a, (f a).CarriesName) :
    (l.forM f).CarriesName := by
  induction l with
  | nil => exact carriesName_pure _
  | cons a l ih => exact (hf a).bind fun _ => ih

theorem carriesName_mapM {l : List α} {f : α → Passing β} (hf : ∀ a, (f a).CarriesName) :
    (l.mapM f).CarriesName := by
  induction l with
  | nil => exact carriesName_pure _
  | cons a l ih =>
    rw [List.mapM_cons]
    exact (hf a).bind fun _ => ih.bind fun _ => carriesName_pure _

theorem carriesName_find (id : NodeId) :
    (edit (Edit.ask (·.find id))).CarriesName :=
  carriesName_edit (Edit.ignoresName_ask fun _ _ => rfl)

theorem carriesName_generate (kind : NodeKind) (span : Option Span) :
    (generate kind span).CarriesName :=
  (carriesName_edit (Edit.ignoresName_create kind)).bind fun id =>
    (carriesName_edit (Edit.ignoresName_setSpan id span)).bind fun _ => carriesName_pure id

theorem carriesName_replaceShorthand (anchor : NodeId) (span : Option Span)
    (media : Option String) (declarations : List NodeId) :
    (replaceShorthand anchor span media declarations).CarriesName := by
  cases media with
  | some query =>
    refine (carriesName_generate _ span).bind fun block => ?_
    refine (carriesName_forM fun id =>
      carriesName_edit (Edit.ignoresName_append block id)).bind fun _ => ?_
    exact (carriesName_edit (Edit.ignoresName_replaceWith anchor block)).bind fun _ =>
      carriesName_count _ _ _
  | none =>
    refine (carriesName_find anchor).bind fun node => ?_
    split
    · exact carriesName_throw fun _ => rfl
    · refine (carriesName_forM fun id =>
        carriesName_edit (Edit.ignoresName_insertBefore _ anchor id)).bind fun _ => ?_
      exact carriesName_edit (Edit.ignoresName_remove anchor)

/-- The one part that tells the name: where the font size is missing. -/
theorem carriesName_expandShorthand (rootSize : Option String) (anchor : NodeId) (raw : String) :
    (expandShorthand rootSize anchor raw).CarriesName := by
  cases hsize : (Shorthand.ofText raw).fontSize with
  | none =>
    intro pass file
    rw [expandShorthand_of_isNone hsize, expandShorthand_of_isNone hsize, Pass.inFile,
      Document.location?_inFile]
    rfl
  | some size =>
    unfold expandShorthand
    dsimp only
    rw [hsize, if_neg (by simp)]
    refine (carriesName_find anchor).bind fun node => ?_
    refine (carriesName_mapM fun pair => carriesName_generate _ _).bind fun declarations => ?_
    refine (carriesName_replaceShorthand _ _ _ _).bind fun _ => ?_
    exact (carriesName_log _).bind fun _ => carriesName_count _ _ _

theorem carriesName_visit (rootSize : Option String) (id : NodeId) :
    (visit rootSize id).CarriesName := by
  refine carriesName_get_bind (fun pass => ?_) fun _ _ => rfl
  split
  · exact carriesName_pure _
  · split
    · exact carriesName_pure _
    · exact carriesName_expandShorthand rootSize id _

theorem carriesName_expandAll (options : Options) : (expandAll options).CarriesName := by
  unfold expandAll
  split
  · exact carriesName_throw fun _ => rfl
  · refine (carriesName_edit (Edit.ignoresName_ask fun d file =>
      d.walk_inFile file .root)).bind fun ids => ?_
    refine (carriesName_forM fun id => carriesName_visit _ id).bind fun _ => ?_
    refine carriesName_get_bind (fun pass => ?_) fun _ _ => rfl
    exact (carriesName_log _).bind fun _ => carriesName_pure _

end Passing

/-- The name of a document does not matter to an expansion, but is told in its error. -/
theorem Document.expand_inFile (d : Document) (file : Option String) (options : Options) :
    (d.inFile file).expand options =
      ⟨retold file (d.expand options).result, (d.expand options).document.inFile file,
        (d.expand options).events⟩ := by
  have h := Passing.carriesName_expandAll options ⟨d, .zero, #[]⟩ file
  have hexpand : ∀ d : Document, d.expand options =
      ⟨((Passing.expandAll options).on ⟨d, .zero, #[]⟩).1,
        ((Passing.expandAll options).on ⟨d, .zero, #[]⟩).2.document,
        ((Passing.expandAll options).on ⟨d, .zero, #[]⟩).2.events.toList⟩ := fun _ => rfl
  rw [hexpand, hexpand, show (⟨d.inFile file, .zero, #[]⟩ : Pass) =
    Pass.inFile ⟨d, .zero, #[]⟩ file from rfl, h]
  rfl

end Typography
