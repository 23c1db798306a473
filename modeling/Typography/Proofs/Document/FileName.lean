import Typography.Proofs.Document.Edits

/-!
# The name of the file

A document carries the name of the file it was read from, to say in messages where a node
stands. Nothing else looks at the name: the same nodes under another name are seen in the same
way, and an edit answers the same and leaves the same nodes, `Edit.IgnoresName`.
-/

namespace Typography

/-- The same position in another file. -/
def Location.inFile (location : Location) (file : Option String) : Location :=
  { location with file }

namespace Document

/-- The same nodes under the name of another file. -/
def inFile (d : Document) (file : Option String) : Document :=
  { d with file }

variable (d : Document) (file : Option String)

@[simp] theorem size_inFile : (d.inFile file).size = d.size := rfl

@[simp] theorem get?_inFile (id : NodeId) : (d.inFile file).get? id = d.get? id := rfl

theorem location?_inFile (id : NodeId) :
    (d.inFile file).location? id = (d.location? id).map (·.inFile file) := by
  unfold location?
  rw [get?_inFile]
  cases d.get? id with
  | none => rfl
  | some node =>
    obtain ⟨kind, parent, children, span⟩ := node
    cases span <;> rfl

theorem lineageWithin_inFile (levels : Nat) (id : NodeId) :
    (d.inFile file).lineageWithin levels id = d.lineageWithin levels id := by
  induction levels generalizing id with
  | zero => rfl
  | succ levels ih =>
    rw [lineageWithin, lineageWithin, get?_inFile]
    cases (d.get? id).bind Node.parent with
    | none => rfl
    | some parent => exact congrArg _ (ih parent)

theorem checkInsertable_inFile (p c : NodeId) :
    (d.inFile file).checkInsertable p c = d.checkInsertable p c := by
  have hlineage : (d.inFile file).lineage p = d.lineage p := d.lineageWithin_inFile file _ p
  unfold checkInsertable
  rw [hlineage]
  rfl

theorem gatherWithin_inFile (join : NodeId → List NodeId → List NodeId) (levels : Nat)
    (ids : List NodeId) :
    (d.inFile file).gatherWithin join levels ids = d.gatherWithin join levels ids := by
  induction levels generalizing ids with
  | zero => rfl
  | succ levels ih =>
    rw [gatherWithin, gatherWithin]
    simp only [ih]
    rfl

theorem walk_inFile (id : NodeId) : (d.inFile file).walk id = d.walk id := by
  unfold walk
  simp only [gatherWithin_inFile]
  rfl

theorem descendants_inFile (id : NodeId) :
    (d.inFile file).descendants id = d.descendants id := by
  unfold descendants
  simp only [gatherWithin_inFile]
  rfl

theorem treesWithin_inFile (levels : Nat) (ids : List NodeId) :
    (d.inFile file).treesWithin levels ids = d.treesWithin levels ids := by
  induction levels generalizing ids with
  | zero => rfl
  | succ levels ih =>
    rw [treesWithin, treesWithin]
    simp only [ih, get?_inFile]

theorem trees_inFile : (d.inFile file).trees = d.trees := by
  unfold trees treesOf
  simp only [treesWithin_inFile, get?_inFile]
  rfl

theorem detach_inFile (id : NodeId) : (d.inFile file).detach id = (d.detach id).inFile file := by
  unfold detach
  rw [get?_inFile]
  cases (d.get? id).bind Node.parent <;> rfl

theorem eraseAll_inFile (ids : List NodeId) :
    (d.inFile file).eraseAll ids = (d.eraseAll ids).inFile file := by
  induction ids generalizing d with
  | nil => rfl
  | cons id ids ih => exact ih (d.erase id)

end Document

namespace Edit

open Document

/-- The edit answers the same for a document under another name, and leaves the same nodes. -/
def IgnoresName {α : Type} (e : Edit α) : Prop :=
  ∀ d file, e.on (d.inFile file) = ((e.on d).1, (e.on d).2.inFile file)

variable {α β : Type}

theorem ignoresName_pure (a : α) : (pure a : Edit α).IgnoresName := fun _ _ => rfl

theorem ignoresName_throw (cause : TreeError) : (throw cause : Edit α).IgnoresName :=
  fun _ _ => rfl

theorem IgnoresName.bind {e : Edit α} {f : α → Edit β} (he : e.IgnoresName)
    (hf : ∀ a, (f a).IgnoresName) : (e >>= f).IgnoresName := by
  intro d file
  rw [on_bind, on_bind, he d file]
  generalize e.on d = r
  obtain ⟨result, d'⟩ := r
  cases result with
  | error cause => rfl
  | ok a => exact hf a d' file

theorem ignoresName_ask {f : Document → Except TreeError α}
    (h : ∀ d file, f (d.inFile file) = f d) : (ask f).IgnoresName := by
  intro d file
  rw [on_ask, on_ask, h]

theorem ignoresName_change {f : Document → Document}
    (h : ∀ d file, f (d.inFile file) = (f d).inFile file) : (change f).IgnoresName := by
  intro d file
  rw [on_change, on_change, h]

theorem ignoresName_create (kind : NodeKind) : (create kind).IgnoresName := fun _ _ => rfl

theorem ignoresName_setSpan (id : NodeId) (span : Option Span) : (setSpan id span).IgnoresName :=
  (ignoresName_ask fun _ _ => rfl).bind fun _ => ignoresName_change fun _ _ => rfl

theorem ignoresName_append (p c : NodeId) : (append p c).IgnoresName := by
  refine (ignoresName_ask fun d file => d.checkInsertable_inFile file p c).bind fun _ => ?_
  refine (ignoresName_change fun d file => d.detach_inFile file c).bind fun _ => ?_
  exact (ignoresName_ask fun _ _ => rfl).bind fun _ => ignoresName_change fun _ _ => rfl

theorem ignoresName_insertBefore (p a c : NodeId) : (insertBefore p a c).IgnoresName := by
  refine (ignoresName_ask fun d file => d.checkInsertable_inFile file p c).bind fun _ => ?_
  refine (ignoresName_ask fun _ _ => rfl).bind fun _ => ?_
  split
  · exact ignoresName_pure ()
  · refine (ignoresName_change fun d file => d.detach_inFile file c).bind fun _ => ?_
    exact (ignoresName_ask fun _ _ => rfl).bind fun _ => ignoresName_change fun _ _ => rfl

theorem ignoresName_remove (id : NodeId) : (remove id).IgnoresName := by
  have hremove : (ask (·.descendants id) >>= fun below => change (·.detach id) >>= fun _ =>
      change (·.eraseAll below) >>= fun _ => change (·.erase id) : Edit Unit).IgnoresName := by
    refine (ignoresName_ask fun d file => d.descendants_inFile file id).bind fun below => ?_
    refine (ignoresName_change fun d file => d.detach_inFile file id).bind fun _ => ?_
    refine (ignoresName_change fun d file => d.eraseAll_inFile file below).bind fun _ => ?_
    exact ignoresName_change fun _ _ => rfl
  unfold remove
  split
  · exact (ignoresName_throw _).bind fun _ => hremove
  · exact hremove

theorem ignoresName_replaceWith (a c : NodeId) : (replaceWith a c).IgnoresName := by
  refine (ignoresName_ask fun _ _ => rfl).bind fun node => ?_
  split
  · exact ignoresName_throw _
  · exact (ignoresName_insertBefore _ a c).bind fun _ => ignoresName_remove a

mutual

theorem ignoresName_graft (parent : NodeId) : ∀ tree, (graft parent tree).IgnoresName
  | .node kind span children =>
    (ignoresName_create kind).bind fun id => (ignoresName_append parent id).bind fun _ =>
      (ignoresName_setSpan id span).bind fun _ => ignoresName_graftAll id children

theorem ignoresName_graftAll (parent : NodeId) : ∀ trees, (graftAll parent trees).IgnoresName
  | [] => ignoresName_pure ()
  | tree :: trees =>
    (ignoresName_graft parent tree).bind fun _ => ignoresName_graftAll parent trees

end

end Edit

/-- The file gives a document its name and nothing else. -/
theorem Document.ofTrees_eq_inFile (file : Option String) (trees : List Tree) :
    ofTrees file trees = (ofTrees none trees).inFile file :=
  congrArg Prod.snd (Edit.ignoresName_graftAll .root trees (.empty none) file)

end Typography
