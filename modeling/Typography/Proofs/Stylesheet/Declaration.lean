import Typography.Proofs.Text.Trim
import Typography.Stylesheet.Statement

/-!
# The parts of a declaration

The first colon of a declaration divides it, `readDeclaration_append`, and a flag at the end of
the value, whatever the case of its letters and whatever blanks stand around it, is cut off,
`splitImportant_append`.
-/

namespace Typography

open Text

/-- The flag at the end of a trimmed value is cut off. -/
theorem splitImportant_of_trim_eq {value front flag : List Char} (h : trim value = front ++ flag)
    (hflag : flag.map Char.toLower = importantFlag) :
    splitImportant value = (trimEnd front, true) := by
  have hlength : flag.length = importantFlag.length := by rw [← hflag, List.length_map]
  unfold splitImportant
  simp only [h, List.length_append, ← hlength, Nat.add_sub_cancel, List.drop_left, List.take_left,
    hflag, if_true]

/-- A flag behind a value is cut off. -/
theorem splitImportant_append {flag s : List Char} (hflag : flag.map Char.toLower = importantFlag)
    (hs : ∀ c ∈ s, isBlank c) (value : List Char) :
    splitImportant (value ++ (flag ++ s)) = (trim value, true) := by
  have htrimmed : IsTrimmed flag := by
    rw [← isTrimmed_map_toLower, hflag]
    decide +kernel
  have hne : flag ≠ [] := by
    rintro rfl
    exact absurd hflag (by decide +kernel)
  exact splitImportant_of_trim_eq (htrimmed.trim_append_right hne hs value) hflag

/-- A value that has no flag at its end is trimmed. -/
theorem splitImportant_of_not_suffix {value : List Char}
    (h : ¬importantFlag <:+ (trim value).map Char.toLower) :
    splitImportant value = (trim value, false) := by
  unfold splitImportant
  dsimp only
  rw [if_neg]
  intro heq
  apply h
  rw [← heq, List.map_drop]
  exact List.drop_suffix _ _

/-- Without a flag a value is trimmed. -/
theorem splitImportant_of_eq_false {value : List Char} (h : (splitImportant value).2 = false) :
    (splitImportant value).1 = trim value := by
  unfold splitImportant at h ⊢
  dsimp only at h ⊢
  split at h
  · cases h
  · rw [if_neg ‹_›]

/-- A declaration is divided by the first colon, if something stands before it. -/
theorem readDeclaration_append {property : List Char} (h : ':' ∉ property) (value : List Char) :
    readDeclaration (property ++ ':' :: value) =
      if (trim property).isEmpty then .error .withoutProperty
      else .ok (.declaration (String.ofList (trim property))
        (String.ofList (splitImportant value).1) (splitImportant value).2) := by
  have hother : ∀ c ∈ property, c != ':' := fun c hc => by
    rw [bne_iff_ne]
    rintro rfl
    exact h hc
  rw [readDeclaration, List.dropWhile_append_of_pos hother, List.takeWhile_append_of_pos hother]
  simp

/-- What is read as a declaration has a colon with something before it, and its value is split
behind the first one. -/
theorem exists_of_readDeclaration {text : List Char} {kind : NodeKind}
    (h : readDeclaration text = .ok kind) :
    ∃ property value, ':' ∉ property ∧ trim property ≠ [] ∧ text = property ++ ':' :: value ∧
      kind = .declaration (String.ofList (trim property)) (String.ofList (splitImportant value).1)
        (splitImportant value).2 := by
  by_cases hcolon : ':' ∈ text
  · obtain ⟨property, value, rfl, hproperty⟩ := List.eq_append_cons_of_mem hcolon
    rw [readDeclaration_append hproperty] at h
    split at h
    · cases h
    · rename_i hne
      exact ⟨property, value, hproperty, by simpa using hne, rfl, (Except.ok.inj h).symm⟩
  · have hnil : text.dropWhile (· != ':') = [] := by
      rw [List.dropWhile_eq_nil_iff]
      intro c hc
      rw [bne_iff_ne]
      rintro rfl
      exact hcolon hc
    rw [readDeclaration, hnil] at h
    cases h

end Typography
