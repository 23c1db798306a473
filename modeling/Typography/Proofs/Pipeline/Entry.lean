import Typography.Pipeline
import Typography.Proofs.Expansion.FileName
import Typography.Proofs.Files.ReadBack

/-!
# The ways into the pipeline

A stylesheet is processed as a text without a name, as a text with one, or as a file. The
result does not depend on the way, but an error tells the name, `Processed.ofText_eq`.
-/

namespace Typography

namespace Processed

/-- The text that a stylesheet was processed to. -/
def output (processed : Processed) : Except ExpansionError String :=
  processed.result.map Prod.snd

/-- The name of the file is told in an error and does not matter otherwise. -/
theorem ofText_eq (file : Option String) (css : String) (options : Options) :
    ofText file css options =
      ⟨retold file (ofText none css options).result, (ofText none css options).events⟩ := by
  unfold ofText
  dsimp only
  rw [Document.ofTrees_eq_inFile file, Document.expand_inFile, Document.trees_inFile,
    Document.size_inFile]
  generalize (Document.ofTrees none (Reading.ofText css).trees).expand options = expansion
  obtain ⟨result, document, events⟩ := expansion
  cases result <;> rfl

theorem output_ofText (file : Option String) (css : String) (options : Options) :
    (ofText file css options).output = retold file (ofText none css options).output := by
  rw [output, ofText_eq]
  generalize ofText none css options = processed
  obtain ⟨result, events⟩ := processed
  cases result <;> rfl

end Processed

/-- A step on a workspace with another step behind it. -/
theorem run_bind_of {σ α β : Type} {m : StateM σ α} {f : α → StateM σ β} {s s' : σ} {a : α}
    (h : m.run s = (a, s')) : (m >>= f).run s = (f a).run s' := by
  rw [StateT.run_bind, h]
  rfl

/-- A file that is read is processed under its path. -/
theorem processFile_run {host : Host (StateM Workspace)} {path css : String} {w w' : Workspace}
    (hread : (host.readFile path).run w = (.ok css, w')) (options : Options) :
    ∃ events, (processFile host path options).run w =
      (((Processed.ofText (some path) css options).output.mapError .expansion, events), w') := by
  rw [processFile, run_bind_of hread, Processed.output]
  dsimp only
  generalize Processed.ofText (some path) css options = processed
  obtain ⟨result, events⟩ := processed
  cases result <;> exact ⟨_, rfl⟩

end Typography
