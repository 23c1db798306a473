/-!
# Scans

A scan is what a scanner found at the front of a text: the lexeme, which is the
stretch of text itself, the value it stands for, and the text behind it. Lexeme
and rest always put together the text that was scanned, `Scan.Splits`, so a
scanner neither loses nor moves a character.
-/

namespace Typography

/-- A value read from the front of a text. -/
structure Scan (α : Type) where
  lexeme : List Char
  value : α
  rest : List Char
  deriving Repr

namespace Scan

/-- Lexeme and rest make up the text. -/
def Splits {α : Type} (s : Scan α) (text : List Char) : Prop :=
  s.lexeme ++ s.rest = text

/-- The same stretch of text with another value. -/
def map {α β : Type} (f : α → β) (s : Scan α) : Scan β :=
  ⟨s.lexeme, f s.value, s.rest⟩

/-- A scan whose lexeme starts with `before`, the value changed by `f`. -/
def behind {α β : Type} (before : List Char) (f : α → β) (s : Scan α) : Scan β :=
  ⟨before ++ s.lexeme, f s.value, s.rest⟩

variable {α β : Type}

@[simp] theorem lexeme_map (f : α → β) (s : Scan α) : (s.map f).lexeme = s.lexeme := rfl

@[simp] theorem value_map (f : α → β) (s : Scan α) : (s.map f).value = f s.value := rfl

@[simp] theorem rest_map (f : α → β) (s : Scan α) : (s.map f).rest = s.rest := rfl

@[simp] theorem lexeme_behind (before : List Char) (f : α → β) (s : Scan α) :
    (s.behind before f).lexeme = before ++ s.lexeme := rfl

@[simp] theorem value_behind (before : List Char) (f : α → β) (s : Scan α) :
    (s.behind before f).value = f s.value := rfl

@[simp] theorem rest_behind (before : List Char) (f : α → β) (s : Scan α) :
    (s.behind before f).rest = s.rest := rfl

namespace Splits

@[simp] theorem map_iff {s : Scan α} {text : List Char} (f : α → β) :
    (s.map f).Splits text ↔ s.Splits text := Iff.rfl

theorem behind {s : Scan α} {text : List Char} (h : s.Splits text)
    (before : List Char) (f : α → β) : (s.behind before f).Splits (before ++ text) := by
  simp only [Splits, lexeme_behind, rest_behind, List.append_assoc]
  rw [h]

theorem behind_cons {s : Scan α} {text : List Char} (h : s.Splits text) (c : Char)
    (f : α → β) : (s.behind [c] f).Splits (c :: text) :=
  h.behind [c] f

theorem length_eq {s : Scan α} {text : List Char} (h : s.Splits text) :
    s.lexeme.length + s.rest.length = text.length := by
  rw [← List.length_append, h]

theorem length_rest_le {s : Scan α} {text : List Char} (h : s.Splits text) :
    s.rest.length ≤ text.length := by
  have := h.length_eq
  omega

theorem length_rest_lt {s : Scan α} {text : List Char} (h : s.Splits text)
    (hne : s.lexeme ≠ []) : s.rest.length < text.length := by
  have := h.length_eq
  have := List.length_pos_iff.mpr hne
  omega

end Splits

/-- The longest stretch of characters that satisfy `p`. -/
def takeWhile (p : Char → Bool) (text : List Char) : Scan (List Char) :=
  ⟨text.takeWhile p, text.takeWhile p, text.dropWhile p⟩

theorem splits_takeWhile (p : Char → Bool) (text : List Char) :
    (Scan.takeWhile p text).Splits text :=
  List.takeWhile_append_dropWhile

end Scan

end Typography
