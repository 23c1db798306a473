import Mathlib.Data.List.DropRight
import Typography.Proofs.Stylesheet.Grouping

/-!
# Significant tokens

The tokens of a text that stand inside brackets or are neither whitespace nor a comment,
`Token.significant`. They stay the same with another end that may stand in the place of the
end of the text, `Token.significantIn_eq`, and with nothing in the place of the whitespace at
the end, as long as the last token does not need it, `Token.significant_rdropWhile`.
-/

namespace Typography

open Text

variable {X Y x y : List Char}

namespace Text

/-- A character that is not dropped keeps what stands behind it. -/
theorem lt_length_dropWhile {p : Char → Bool} {c : Char} (hc : p c = false) (u s : List Char) :
    s.length < ((u ++ c :: s).dropWhile p).length := by
  induction u with
  | nil =>
    rw [List.nil_append, List.dropWhile_cons, hc]
    exact Nat.lt_succ_self _
  | cons d u ih =>
    rw [List.cons_append, List.dropWhile_cons]
    split
    · exact ih
    · simp only [List.length_cons, List.length_append]
      omega

theorem rdropWhile_append {p : Char → Bool} {s u : List Char} (hs : ∀ c ∈ s, p c)
    (hu : ∀ c ∈ u.getLast?, p c = false) : (u ++ s).rdropWhile p = u := by
  rw [List.rdropWhile, List.reverse_append,
    List.dropWhile_append_of_pos fun c hc => hs c (List.mem_reverse.mp hc)]
  exact List.rdropWhile_eq_self_iff.mpr fun hne => by
    simp [hu _ (List.getLast?_eq_some_getLast hne)]

end Text

namespace Lexeme

/-- What `take` makes of the given tokens one by one, where those of `brackets` are open at
first. It is told whether a token stands outside brackets. -/
def collect {α : Type} (take : Bool → Token → List α) (brackets : List Bracket) :
    List Lexeme → List α
  | [] => []
  | lexeme :: lexemes =>
    take brackets.isEmpty lexeme.token ++ collect take (lexeme.token.nest brackets) lexemes

theorem collect_all_of_scan? {α : Type} {text : List Char} {t : Scan Token}
    (ht : Token.scan? text = some t) (take : Bool → Token → List α) (brackets : List Bracket) :
    collect take brackets (all text) =
      take brackets.isEmpty t.value ++ collect take (t.value.nest brackets) (all t.rest) := by
  rw [all_of_scan? ht]
  rfl

/-- The tokens among the given ones that stand inside brackets or are neither whitespace nor
a comment, where those of `brackets` are open at first. -/
def significant (brackets : List Bracket) (lexemes : List Lexeme) : List Token :=
  collect (fun outside token => if outside && token.pieceKind != .solid then [] else [token])
    brackets lexemes

end Lexeme

namespace Token

/-- The significant tokens of a text that starts inside `brackets`. -/
def significantIn (brackets : List Bracket) (text : List Char) : List Token :=
  Lexeme.significant brackets (Lexeme.all text)

/-- The tokens of a text, without the whitespace and the comments outside brackets. -/
def significant (text : List Char) : List Token :=
  significantIn [] text

@[simp] theorem significantIn_nil (brackets : List Bracket) : significantIn brackets [] = [] := by
  simp [significantIn, Lexeme.significant, Lexeme.collect]

@[simp] theorem significant_nil : significant [] = [] :=
  significantIn_nil []

theorem significantIn_of_scan? {text : List Char} {t : Scan Token} (ht : scan? text = some t)
    (brackets : List Bracket) :
    significantIn brackets text =
      (if brackets.isEmpty && t.value.pieceKind != .solid then [] else [t.value]) ++
        significantIn (t.value.nest brackets) t.rest := by
  rw [significantIn, Lexeme.all_of_scan? ht]
  rfl

theorem significant_of_scan? {text : List Char} {t : Scan Token} (ht : scan? text = some t) :
    significant text =
      (if t.value.pieceKind = .solid then [t.value] else []) ++
        significantIn t.value.opened?.toList t.rest := by
  rw [significant, significantIn_of_scan? ht, nest_nil]
  congr 1
  by_cases h : t.value.pieceKind = .solid <;> simp [h]

/-- Whitespace at the front of a text is not significant. -/
theorem significant_dropWhile (text : List Char) :
    significant (text.dropWhile isSpace) = significant text := by
  cases text with
  | nil => rfl
  | cons c cs =>
    by_cases hc : isSpace c
    · rw [significant_of_scan? (scan?_of_isSpace hc cs)]
      rfl
    · rw [List.dropWhile_cons, if_neg hc]

theorem significant_append {s : List Char} (hs : ∀ c ∈ s, isSpace c) (text : List Char) :
    significant (s ++ text) = significant text := by
  rw [← significant_dropWhile, List.dropWhile_append_of_pos hs, significant_dropWhile]

/-- The tokens of brackets come before those of the text behind them. -/
theorem exists_significantIn (brackets : List Bracket) (text : List Char) :
    ∃ tokens, significantIn brackets text =
      tokens ++ significant (scanBrackets brackets text).rest := by
  fun_induction scanBrackets brackets text with
  | case1 brackets text hempty =>
    obtain rfl := List.isEmpty_iff.mp hempty
    exact ⟨[], rfl⟩
  | case2 brackets text hempty hnone =>
    rw [scan?_eq_none_iff.mp hnone]
    exact ⟨[], by simp⟩
  | case3 brackets text hempty t ht ih =>
    obtain ⟨tokens, htokens⟩ := ih
    rw [significantIn_of_scan? ht, htokens]
    exact ⟨_, (List.append_assoc _ _ _).symm⟩

/-- Brackets that leave the end of a text have the same tokens with another end in its
place. -/
theorem significantIn_eq (hj : Joint X Y) (brackets : List Bracket) (h : SameBefore X Y x y)
    (hrest : X.length ≤ (scanBrackets brackets x).rest.length)
    (hbehind : significant (scanBrackets brackets x).rest =
      significant (scanBrackets brackets y).rest) :
    significantIn brackets x = significantIn brackets y := by
  fun_induction scanBrackets brackets x generalizing y with
  | case1 brackets x hempty =>
    obtain rfl := List.isEmpty_iff.mp hempty
    rwa [scanBrackets_nil] at hbehind
  | case2 brackets x hempty hnone =>
    have hpos := hj.length_pos
    rw [scan?_eq_none_iff.mp hnone, List.length_nil] at hrest
    omega
  | case3 brackets x hempty t ht ih =>
    have hne : brackets ≠ [] := by simpa using hempty
    obtain ⟨t', ht', halike⟩ := alike_scan? hj h ht (leaves_of_scanBrackets hj hne hrest)
    rw [scanBrackets_of_scan? hne ht', ← halike.value_eq] at hbehind
    rw [significantIn_of_scan? ht, significantIn_of_scan? ht', ← halike.value_eq,
      ih halike.rest hrest hbehind]

/-- Tokens with nothing in the place of the whitespace at the end are the same, if the last
one is. -/
theorem collect_eq_of_last {α : Type} (take : Bool → Token → List α) (hj : Joint X [])
    (brackets : List Bracket) (h : SameBefore X [] x y)
    (hlast : ∀ last ∈ (Lexeme.all x).getLast?, ∃ v d, last.text = v ++ d :: X ∧
      isSpace d = false ∧ scan? (v ++ [d]) = some ⟨v ++ [d], last.token, []⟩) :
    Lexeme.collect take brackets (Lexeme.all x) = Lexeme.collect take brackets (Lexeme.all y) := by
  fun_induction Lexeme.all x generalizing y brackets with
  | case1 x hnone => exact absurd (scan?_eq_none_iff.mp hnone) (h.ne_nil hj)
  | case2 x t ht ih =>
    rw [← Lexeme.all_of_scan? ht, Lexeme.getLast?_all_of_scan? ht] at hlast
    rw [← Lexeme.all_of_scan? ht]
    by_cases hrest : t.rest = []
    · rw [if_pos hrest] at hlast
      obtain ⟨v, d, htext, -, hscan⟩ := hlast _ rfl
      have hsplits := splits_of_scan?_eq_some ht
      rw [Scan.Splits, hrest, List.append_nil, show t.lexeme = _ from htext,
        List.append_cons] at hsplits
      rw [← hsplits] at h
      rw [Lexeme.collect_all_of_scan? ht, h.eq_append, List.append_nil,
        Lexeme.collect_all_of_scan? hscan, hrest]
    · rw [if_neg hrest] at hlast
      obtain ⟨last, hmem⟩ := Lexeme.exists_getLast?_all hrest
      obtain ⟨v, d, htext, hd, -⟩ := hlast last hmem
      obtain ⟨u, hu⟩ := Lexeme.suffix_of_getLast?_all hmem
      rw [htext, ← List.append_assoc] at hu
      have hlt : X.length < t.rest.length := by
        rw [← hu, List.length_append, List.length_cons]
        omega
      have hleaves : Leaves X [] t :=
        { length := Nat.le_of_lt hlt
          space := fun _ _ _ hc => by simp at hc
          quoted := fun _ _ _ heq => absurd hlt (by rw [heq]; exact Nat.lt_irrefl _)
          function := fun _ _ => .inr (hu ▸ lt_length_dropWhile hd (u ++ v) X) }
      obtain ⟨t', ht', halike⟩ := alike_scan? hj h ht hleaves
      rw [Lexeme.collect_all_of_scan? ht, Lexeme.collect_all_of_scan? ht', ← halike.value_eq,
        ih _ halike.rest hlast]

/-- The last token of a text does not need the whitespace that the text ends with: it is the
gap of an escape, or it stands in an address that is not closed. -/
def LastStands (text : List Char) : Prop :=
  text.rdropWhile isSpace = text ∨ (text.rdropWhile isSpace).getLast? ≠ some '\\' ∧
    ∀ last ∈ (Lexeme.all text).getLast?,
      (Lexeme.all (last.text.rdropWhile isSpace)).map Lexeme.token = [last.token]

instance (text : List Char) : Decidable (LastStands text) :=
  have {o : Option Lexeme} : Decidable (∀ last ∈ o,
      (Lexeme.all (last.text.rdropWhile isSpace)).map Lexeme.token = [last.token]) :=
    Option.decidableForallMem o
  inferInstanceAs (Decidable (_ ∨ _ ∧ _))

theorem collect_rdropWhile {α : Type} (take : Bool → Token → List α) {text : List Char}
    (h : LastStands text) :
    Lexeme.collect take [] (Lexeme.all (text.rdropWhile isSpace)) =
      Lexeme.collect take [] (Lexeme.all text) := by
  by_cases hnot : text.rdropWhile isSpace = text
  · rw [hnot]
  obtain ⟨hbackslash, hlast⟩ := h.resolve_left hnot
  have hne : text ≠ [] := fun hnil => hnot (by rw [hnil]; rfl)
  obtain ⟨last, hmem⟩ := Lexeme.exists_getLast?_all hne
  have hscan := Lexeme.scan?_of_all (hlast last hmem)
  have hkept : last.text.rdropWhile isSpace ≠ [] := fun hnil => by simp [hnil, scan?] at hscan
  have hlastNot := List.rdropWhile_last_not isSpace last.text hkept
  obtain ⟨v, d, hv⟩ := (List.eq_nil_or_concat' (last.text.rdropWhile isSpace)).resolve_left hkept
  simp only [hv, List.getLast_append_singleton, Bool.not_eq_true] at hlastNot
  -- the whitespace behind the last token is all that trimming takes
  obtain ⟨u, hu⟩ := Lexeme.suffix_of_getLast?_all hmem
  have hsplit := List.rdropWhile_append_rtakeWhile (p := isSpace) (l := last.text)
  generalize hX : last.text.rtakeWhile isSpace = X at hsplit
  have hspace : ∀ c ∈ X, isSpace c := fun c hc => List.mem_rtakeWhile_imp (hX ▸ hc)
  have htext : u ++ (v ++ [d]) ++ X = text := by rw [List.append_assoc, ← hv, hsplit, hu]
  have htrimmed : text.rdropWhile isSpace = u ++ (v ++ [d]) := by
    rw [← htext]
    exact rdropWhile_append hspace fun c hc => by simp_all
  rw [htrimmed] at hnot hbackslash ⊢
  cases X with
  | nil => exact absurd (by rw [← htext, List.append_nil]) hnot
  | cons e r =>
    have hj : Joint (e :: r) [] :=
      .none (.inl (.inl (hspace e List.mem_cons_self))) r
    have hsame := SameBefore.append hj (u := u ++ (v ++ [d]))
      (.inr (.inl ⟨rfl, fun _ => hbackslash⟩))
    rw [htext, List.append_nil] at hsame
    refine (collect_eq_of_last take hj [] hsame fun other hother => ?_).symm
    obtain rfl := Option.some.inj (hmem.symm.trans hother)
    exact ⟨v, d, by rw [← hsplit, hv, List.append_assoc]; rfl, hlastNot, hv ▸ hscan⟩

theorem significant_rdropWhile {text : List Char} (h : LastStands text) :
    significant (text.rdropWhile isSpace) = significant text := by
  rw [significant, significant, significantIn, significantIn, Lexeme.significant,
    Lexeme.significant, collect_rdropWhile _ h]

end Token

end Typography
