import Mathlib.Data.List.Infix
import Typography.Proofs.Stylesheet.Locality
import Typography.Proofs.Stylesheet.Met
import Typography.Proofs.Stylesheet.Written
import Typography.Proofs.Text.Trim

/-!
# Ink

What a layout adds to the texts of the marks are blanks, semicolons and closing curly
brackets; every other character is ink. What reading makes of a stretch of text has
no more ink than the stretch, and if it has as much, then nothing but blanks was
dropped: `Mark.paler_text`. This says which text an item can be read from when the
ink of a whole layout has to suffice for all marks of it.
-/

namespace Typography

namespace Text

/-- Whether a character is no part of what a layout adds. -/
def isInk (c : Char) : Bool :=
  !(isBlank c || c == ';' || c == '\x7d')

/-- The characters of a text that are no blanks, each one by whether it is ink. -/
def strokes (cs : List Char) : List Bool :=
  (cs.filter fun c => !isBlank c).map isInk

/-- The amount of ink of a text. -/
def ink (cs : List Char) : Nat :=
  (strokes cs).count true

/-- A text with as much ink as another one and the same characters but for blanks, or with
less ink. -/
def Paler (cs text : List Char) : Prop :=
  strokes cs = strokes text ∨ ink cs < ink text

@[simp] theorem strokes_nil : strokes [] = [] := rfl

@[simp] theorem ink_nil : ink [] = 0 := rfl

@[simp] theorem strokes_append (u v : List Char) : strokes (u ++ v) = strokes u ++ strokes v := by
  simp [strokes]

@[simp] theorem ink_append (u v : List Char) : ink (u ++ v) = ink u + ink v := by
  simp [ink]

theorem strokes_cons (c : Char) (cs : List Char) : strokes (c :: cs) = strokes [c] ++ strokes cs :=
  strokes_append [c] cs

theorem ink_cons (c : Char) (cs : List Char) : ink (c :: cs) = ink [c] + ink cs :=
  ink_append [c] cs

theorem strokes_singleton (c : Char) :
    strokes [c] = if isBlank c then [] else [isInk c] := by
  cases hc : isBlank c <;> simp [strokes, hc]

theorem ink_singleton (c : Char) : ink [c] = if isInk c then 1 else 0 := by
  rw [ink, strokes_singleton]
  cases hblank : isBlank c <;> cases hink : isInk c <;> simp_all [isInk]

theorem strokes_eq_nil_iff {cs : List Char} : strokes cs = [] ↔ ∀ c ∈ cs, isBlank c := by
  simp [strokes]

theorem ink_eq_zero_iff {cs : List Char} : ink cs = 0 ↔ ∀ c ∈ cs, isInk c = false := by
  induction cs with
  | nil => simp
  | cons c cs ih =>
    rw [ink_cons, ink_singleton, Nat.add_eq_zero_iff, ih]
    simp

theorem isInk_of_toNat {c : Char} (h : 33 ≤ c.toNat ∧ c.toNat ≤ 126)
    (hne : c.toNat ≠ 59 ∧ c.toNat ≠ 125) : isInk c := by
  have hsemicolon : c ≠ ';' := fun hc => hne.1 (by rw [hc]; rfl)
  have hcurly : c ≠ '\x7d' := fun hc => hne.2 (by rw [hc]; rfl)
  simp [isInk, isBlank_of_toNat h, hsemicolon, hcurly]

theorem strokes_of_isInk {c : Char} (h : isInk c) : strokes [c] = [true] := by
  have hblank : isBlank c = false := by
    cases hc : isBlank c <;> simp_all [isInk]
  rw [strokes_singleton, hblank, h]
  rfl

theorem strokes_trimStart (cs : List Char) : strokes (trimStart cs) = strokes cs := by
  induction cs with
  | nil => rfl
  | cons c cs ih =>
    rw [trimStart_cons]
    split
    · rename_i hc
      rw [ih, strokes_cons c, strokes_singleton, if_pos hc, List.nil_append]
    · rfl

theorem strokes_reverse (cs : List Char) : strokes cs.reverse = (strokes cs).reverse := by
  simp [strokes]

theorem strokes_trimEnd (cs : List Char) : strokes (trimEnd cs) = strokes cs := by
  have := strokes_trimStart cs.reverse
  unfold trimStart at this
  rw [trimEnd, strokes_reverse, this, strokes_reverse, List.reverse_reverse]

theorem strokes_trim (cs : List Char) : strokes (trim cs) = strokes cs := by
  rw [trim, strokes_trimEnd, strokes_trimStart]

theorem strokes_map_toLower (cs : List Char) : strokes (cs.map Char.toLower) = strokes cs := by
  have hone : ∀ c : Char, strokes [c.toLower] = strokes [c] := by
    intro c
    rcases toLower_cases c with h | ⟨hupper, hlower⟩
    · rw [h]
    · rw [strokes_of_isInk (isInk_of_toNat (by omega) (by omega)),
        strokes_of_isInk (isInk_of_toNat (by omega) (by omega))]
  induction cs with
  | nil => rfl
  | cons c cs ih => rw [List.map_cons, strokes_cons, hone, ih, ← strokes_cons]

namespace Paler

variable {u v u' v' : List Char}

theorem of_strokes_eq (h : strokes u = strokes v) : Paler u v :=
  .inl h

theorem refl (u : List Char) : Paler u u :=
  .inl rfl

theorem ink_le (h : Paler u v) : ink u ≤ ink v := by
  rcases h with h | h
  · rw [ink, h, ink]
  · exact Nat.le_of_lt h

theorem strokes_eq (h : Paler u v) (hink : ink v ≤ ink u) : strokes u = strokes v := by
  rcases h with h | h
  · exact h
  · exact absurd h (Nat.not_lt.mpr hink)

theorem append (h : Paler u v) (h' : Paler u' v') : Paler (u ++ u') (v ++ v') := by
  have hle := h.ink_le
  have hle' := h'.ink_le
  rcases h with h | h
  · rcases h' with h' | h'
    · exact .inl (by rw [strokes_append, strokes_append, h, h'])
    · exact .inr (by rw [ink_append, ink_append]; omega)
  · exact .inr (by rw [ink_append, ink_append]; omega)

theorem congr_left (h : strokes u' = strokes u) (hpaler : Paler u v) : Paler u' v := by
  unfold Paler ink at *
  rwa [h]

end Paler

end Text

open Text

namespace Escape

theorem strokes_shown (c : Char) : strokes [shown c] = strokes [c] := by
  unfold shown
  split
  · rename_i hc
    rw [hc]
    rfl
  · rfl

theorem isInk_of_isHex {c : Char} (h : isHex c) : isInk c := by
  have hle : ∀ c d : Char, c ≤ d ↔ c.toNat ≤ d.toNat := fun _ _ => Iff.rfl
  have hrange : (48 ≤ c.toNat ∧ c.toNat ≤ 57) ∨ (65 ≤ c.toNat ∧ c.toNat ≤ 70) ∨
      (97 ≤ c.toNat ∧ c.toNat ≤ 102) := by
    unfold isHex hexValue? at h
    simp only [Bool.and_eq_true, decide_eq_true_eq, hle] at h
    split at h
    · exact .inl ‹_›
    · split at h
      · exact .inr (.inr ‹_›)
      · split at h
        · exact .inr (.inl ‹_›)
        · simp at h
  exact isInk_of_toNat (by omega) (by omega)

/-- An escape stands for less than it is written with. -/
theorem paler_scan (text : List Char) :
    Paler [(scan text).value] ('\\' :: (scan text).lexeme) := by
  have hbackslash : ∀ cs, ink ('\\' :: cs) = 1 + ink cs := ink_cons '\\'
  cases text with
  | nil => exact .of_strokes_eq rfl
  | cons c cs =>
    rw [scan]
    split
    · rename_i hc
      right
      dsimp only
      rw [hbackslash, List.cons_append, ink_cons c, ink_singleton, ink_singleton,
        if_pos (isInk_of_isHex hc)]
      split <;> omega
    · right
      dsimp only
      rw [hbackslash, ink, strokes_shown, ← ink]
      omega

end Escape

namespace Name

/-- The characters that a name stands for are no more than those it is written with. -/
theorem paler_scan (text : List Char) : Paler (scan text).value (scan text).lexeme := by
  fun_induction scan text with
  | case1 => exact .refl []
  | case2 c cs hpart ih => exact (Paler.of_strokes_eq (Escape.strokes_shown c)).append ih
  | case3 c cs hpart hesc ih =>
    obtain ⟨rfl, -⟩ := hesc
    exact Paler.append (u := [(Escape.scan cs).value]) (v := '\\' :: (Escape.scan cs).lexeme)
      (Escape.paler_scan cs) ih
  | case4 => exact .refl []

end Name

namespace Prelude

theorem flatMap_text_scan (inBlock : Bool) (text : List Char) :
    (scan inBlock text).value.flatMap Piece.text = (scan inBlock text).lexeme := by
  fun_induction scan inBlock text with
  | case1 => rfl
  | case2 => rfl
  | case3 text _ t h inside ih => rw [Scan.value_behind, List.flatMap_cons, ih]; rfl

/-- A comment is no less than its opening. -/
theorem ink_pos_of_comment {inBlock : Bool} {text : List Char} {piece : Piece}
    (h : piece ∈ (scan inBlock text).value) (hkind : piece.kind = .comment) :
    0 < ink piece.text := by
  fun_induction scan inBlock text with
  | case1 => simp at h
  | case2 => simp at h
  | case3 text _ t ht inside ih =>
    rcases List.mem_cons.mp h with rfl | h
    · obtain ⟨body, hbody⟩ := Token.exists_of_pieceKind hkind
      obtain ⟨cs, -, ht'⟩ := Token.exists_of_comment ht hbody
      have hlexeme : t.lexeme = '/' :: ('*' :: (Token.scanComment cs).lexeme) := by rw [ht']; rfl
      have hslash : ink ['/'] = 1 := rfl
      rw [ink_append, hlexeme, ink_cons, hslash]
      omega
    · exact ih h

theorem paler_keptFrom (previous : Option Piece) {pieces : List Piece}
    (h : ∀ piece ∈ pieces, piece.kind = .comment → 0 < ink piece.text) :
    Paler (keptFrom previous pieces) (pieces.flatMap Piece.text) := by
  induction pieces generalizing previous with
  | nil => exact .refl []
  | cons piece pieces ih =>
    rw [keptFrom, List.flatMap_cons]
    refine Paler.append ?_ (ih _ fun p hp => h p (List.mem_cons_of_mem _ hp))
    split
    · rename_i hloose
      refine .inr (h piece List.mem_cons_self ?_)
      simp only [Bool.and_eq_true, beq_iff_eq] at hloose
      exact hloose.1
    · exact .refl _

/-- What is kept of a prelude is no more than the prelude. -/
theorem paler_kept (inBlock : Bool) (text : List Char) :
    Paler (kept (scan inBlock text).value) (scan inBlock text).lexeme := by
  rw [← flatMap_text_scan]
  exact paler_keptFrom none fun piece hpiece hkind => ink_pos_of_comment hpiece hkind

end Prelude

/-- A value and its flag are what is split. -/
theorem strokes_splitImportant (value : List Char) :
    strokes (splitImportant value).1 ++ strokes (Mark.flag (splitImportant value).2) =
      strokes value := by
  unfold splitImportant
  dsimp only
  split
  · rename_i hflag
    have hspace : strokes [' '] = [] := rfl
    have htail : strokes importantFlag =
        strokes ((trim value).drop ((trim value).length - importantFlag.length)) :=
      (congrArg strokes hflag).symm.trans (strokes_map_toLower _)
    rw [strokes_trimEnd, Mark.flag_true, strokes_cons, hspace, List.nil_append, htail,
      ← strokes_append, List.take_append_drop, strokes_trim]
  · rw [strokes_trim]
    exact List.append_nil _

/-- Nothing but blanks is dropped from a declaration. -/
theorem strokes_readDeclaration {text : List Char} {kind : NodeKind}
    (h : readDeclaration text = .ok kind) : strokes (Mark.leaf kind).text = strokes text := by
  obtain ⟨property, value, -, -, rfl, rfl⟩ := exists_of_readDeclaration h
  have hcolon : strokes ": ".toList = strokes [':'] := rfl
  simp only [Mark.text, String.toList_ofList, strokes_append, strokes_trim, List.append_assoc,
    strokes_splitImportant, hcolon]
  rw [strokes_cons ':' value]

namespace Token

/-- A comment is closed, or runs to the end of the text. -/
theorem scanComment_cases (text : List Char) :
    (scanComment text).lexeme = (scanComment text).value ++ ['*', '/'] ∨
      scanComment text = ⟨text, text, []⟩ ∧ ¬['*', '/'] <:+: text := by
  fun_induction scanComment text with
  | case1 => exact .inr ⟨rfl, by simp⟩
  | case2 cs => exact .inl rfl
  | case3 c cs hc ih =>
    rcases ih with ih | ⟨ih, hinfix⟩
    · exact .inl (by rw [Scan.lexeme_behind, Scan.value_behind, ih]; rfl)
    · refine .inr ⟨by rw [ih]; rfl, fun h => ?_⟩
      rcases List.infix_cons_iff.mp h with h | h
      · obtain ⟨rest, heq⟩ := h
        exact hc rest (List.cons.inj heq).1.symm (List.cons.inj heq).2.symm
      · exact hinfix h

end Token

namespace Mark

theorem strokes_atRuleHead (name params : List Char) :
    strokes (atRuleHead (String.ofList name) (String.ofList (trim params))) =
      strokes ('@' :: name) ++ strokes params := by
  have hspace : strokes [' '] = [] := rfl
  rw [← strokes_trim params]
  unfold atRuleHead
  split
  · rename_i hempty
    rw [String.isEmpty_iff] at hempty
    have hnil : trim params = [] := by simpa using congrArg String.toList hempty
    simp [hnil]
  · rw [strokes_cons '@', strokes_append, strokes_cons ' ', strokes_cons '@' name]
    simp [hspace]

theorem strokes_opening_rule (selector : List Char) :
    strokes (opening (.rule (String.ofList (trim selector)))).text =
      strokes selector ++ strokes ['\x7b'] := by
  have hspace : strokes [' '] = [] := rfl
  rw [text, strokes_append, strokes_append, String.toList_ofList, strokes_trim]
  split <;> simp [hspace]

/-- The text of a mark has no more ink than what it is read from, unless a comment is not
closed. -/
theorem paler_text {inBlock : Bool} {text : List Char} {s : Scan (Option Mark)} {mark : Mark}
    (h : scan? inBlock text = some s) (hvalue : s.value = some mark) :
    Paler mark.text s.lexeme ∨ ∃ body, mark = leaf (.comment body) ∧ s.rest = [] ∧
      text = '/' :: '*' :: body.toList ∧ ¬['*', '/'] <:+: body.toList := by
  obtain ⟨t, ht, hcases⟩ := scan?_cases h
  rcases hcases with ⟨-, rfl⟩ | ⟨body, hv, rfl⟩ | ⟨hv, -, rfl⟩ | ⟨name, hv, rfl⟩ | ⟨-, rfl⟩
  · simp at hvalue
  · obtain ⟨cs, rfl, rfl⟩ := Token.exists_of_comment ht hv
    obtain rfl : (Token.scanComment cs).value = body := by simpa using hv
    obtain rfl := Option.some.inj hvalue
    rcases Token.scanComment_cases cs with hclosed | ⟨hopen, hinfix⟩
    · refine .inl (.of_strokes_eq (congrArg strokes ?_))
      simp [Mark.text, hclosed]
    · exact .inr ⟨_, rfl, by simp [hopen], by simp [hopen], by simpa [hopen] using hinfix⟩
  · obtain rfl := Option.some.inj hvalue
    rw [Scan.lexeme_map, Token.lexeme_of_isHard (.inr (.inr rfl)) ht hv]
    exact .inl (.refl _)
  · left
    obtain ⟨cs, rfl, rfl⟩ := Token.exists_of_atKeyword ht hv
    obtain rfl : (Name.scan cs).value = name := by simpa using hv
    have hhead := ((Paler.refl ['@']).append (Name.paler_scan cs)).append
      (Prelude.paler_kept inBlock (Name.scan cs).rest)
    have hstrokes := strokes_atRuleHead (Name.scan cs).value
      (Prelude.kept (Prelude.scan inBlock (Name.scan cs).rest).value)
    unfold scanAtRule at hvalue ⊢
    rcases behindPrelude_cases hvalue with ⟨rfl, hlexeme, -⟩ | ⟨kind, hkind, rfl, hlexeme, -⟩
    · rw [hlexeme]
      refine .congr_left ?_ (hhead.append (.refl ['\x7b']))
      have hcurly : strokes " \x7b".toList = strokes ['\x7b'] := rfl
      rw [Mark.text, strokes_append, Scan.rest_behind, hstrokes, hcurly, strokes_cons '@']
      simp only [strokes_append]
    · rw [hlexeme]
      obtain rfl := Option.some.inj hkind
      refine .congr_left ?_ hhead
      rw [Mark.text, Scan.rest_behind, hstrokes, strokes_cons '@']
      simp only [strokes_append]
  · left
    have hkept := Prelude.paler_kept inBlock text
    unfold scanStatement at hvalue ⊢
    rcases behindPrelude_cases hvalue with ⟨rfl, hlexeme, -⟩ | ⟨kind, hkind, rfl, hlexeme, -⟩
    · rw [hlexeme, List.nil_append]
      refine .congr_left ?_ (hkept.append (.refl ['\x7b']))
      rw [strokes_opening_rule, strokes_append]
    · rw [hlexeme, List.nil_append]
      exact .congr_left (strokes_readDeclaration (ok_of_toOption hkind)) hkept

end Mark

end Typography
