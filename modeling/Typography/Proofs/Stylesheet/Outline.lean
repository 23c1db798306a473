import Typography.Proofs.Stylesheet.Stretch

/-!
# The outline of a text

The kinds of the pieces of a text in a row, `Token.outline`: whitespace, comments, and
everything else, brackets with what is in them as one piece. A comment of the text is loose
when it is the first or the last piece or stands next to whitespace, `HasLoose`.

The outline is the same without the whitespace at the end of the last token,
`Token.outline_rdropWhile`, and a piece is the same in front of a text that may follow it,
`Prelude.outline_of_follows`.
-/

namespace Typography

open Text

/-- A comment among pieces of these kinds is the first or the last one, or next to
whitespace. -/
def HasLoose (kinds : List PieceKind) : Prop :=
  ∃ before after, kinds = before ++ .comment :: after ∧
    ((∀ kind ∈ before.getLast?, kind = .space) ∨ ∀ kind ∈ after.head?, kind = .space)

/-- Whether one of the pieces behind others is such a comment, where `bare` says of these
whether there are none or the last one is whitespace. -/
def hasLooseFrom (bare : Bool) : List PieceKind → Bool
  | [] => false
  | kind :: kinds =>
    (kind == .comment && (bare || kinds.head?.all (· == .space))) ||
      hasLooseFrom (kind == .space) kinds

/-- Kinds of pieces with each run of whitespace as one piece. -/
def squeeze : List PieceKind → List PieceKind
  | [] => []
  | kind :: kinds =>
    if kind == .space && (squeeze kinds).head? == some .space then squeeze kinds
    else kind :: squeeze kinds

theorem hasLooseFrom_iff {bare : Bool} {kinds : List PieceKind} :
    hasLooseFrom bare kinds ↔ ∃ before after, kinds = before ++ .comment :: after ∧
      ((if before = [] then bare = true else before.getLast? = some .space) ∨
        ∀ kind ∈ after.head?, kind = .space) := by
  induction kinds generalizing bare with
  | nil => simp [hasLooseFrom]
  | cons kind kinds ih =>
    have hhead : kinds.head?.all (· == .space) ↔ ∀ kind ∈ kinds.head?, kind = .space := by
      cases kinds.head? <;> simp
    have hlast : ∀ before : List PieceKind, (kind :: before).getLast? = some .space ↔
        if before = [] then (kind == .space) = true else before.getLast? = some .space := by
      intro before
      cases before <;> simp
    rw [hasLooseFrom, Bool.or_eq_true, Bool.and_eq_true, Bool.or_eq_true, beq_iff_eq, ih, hhead]
    constructor
    · rintro (⟨rfl, h⟩ | ⟨before, after, rfl, h⟩)
      · exact ⟨[], kinds, rfl, h⟩
      · exact ⟨kind :: before, after, rfl, by rwa [if_neg (by simp), hlast]⟩
    · rintro ⟨_ | ⟨_, before⟩, after, heq, h⟩
      · obtain ⟨rfl, rfl⟩ := List.cons.inj heq
        exact .inl ⟨rfl, h⟩
      · obtain ⟨rfl, rfl⟩ := List.cons.inj heq
        rw [if_neg (by simp), hlast] at h
        exact .inr ⟨before, after, rfl, h⟩

/-- What comes first has nothing in front of it. -/
theorem hasLoose_iff {kinds : List PieceKind} : HasLoose kinds ↔ hasLooseFrom true kinds := by
  rw [hasLooseFrom_iff, HasLoose]
  refine exists_congr fun before => exists_congr fun after => and_congr_right fun _ => ?_
  refine or_congr_left ?_
  cases hbefore : before.getLast? with
  | none => simp [List.getLast?_eq_none_iff.mp hbefore]
  | some kind =>
    have hne : before ≠ [] := fun hnil => by simp [hnil] at hbefore
    simp [hne]

instance (kinds : List PieceKind) : Decidable (HasLoose kinds) :=
  decidable_of_iff _ hasLoose_iff.symm

theorem head?_squeeze (kinds : List PieceKind) : (squeeze kinds).head? = kinds.head? := by
  cases kinds with
  | nil => rfl
  | cons kind kinds =>
    rw [squeeze]
    split
    · rename_i h
      simp only [Bool.and_eq_true, beq_iff_eq] at h
      rw [h.1, h.2]
      rfl
    · rfl

/-- Runs of whitespace are as good as single pieces. -/
theorem hasLooseFrom_squeeze (bare : Bool) (kinds : List PieceKind) :
    hasLooseFrom bare (squeeze kinds) = hasLooseFrom bare kinds := by
  induction kinds generalizing bare with
  | nil => rfl
  | cons kind kinds ih =>
    rw [squeeze]
    split
    · rename_i h
      simp only [Bool.and_eq_true, beq_iff_eq] at h
      obtain ⟨rfl, hhead⟩ := h
      rw [ih, hasLooseFrom]
      rw [head?_squeeze] at hhead
      cases kinds with
      | nil => cases hhead
      | cons kind kinds =>
        obtain rfl := Option.some.inj hhead
        rfl
    · rw [hasLooseFrom, hasLooseFrom, head?_squeeze, ih]

/-- Whitespace in front sets a comment free as the start of the text does. -/
theorem hasLoose_space_cons {kinds : List PieceKind} :
    HasLoose (.space :: kinds) ↔ HasLoose kinds := by
  rw [hasLoose_iff, hasLoose_iff]
  rfl

theorem hasLooseFrom_append_space {spaces : List PieceKind} (h : ∀ kind ∈ spaces, kind = .space)
    (bare : Bool) (kinds : List PieceKind) :
    hasLooseFrom bare (kinds ++ spaces) = hasLooseFrom bare kinds := by
  induction kinds generalizing bare with
  | nil =>
    induction spaces generalizing bare with
    | nil => rfl
    | cons kind spaces ih =>
      obtain rfl := h kind List.mem_cons_self
      exact ih (fun other hmem => h other (List.mem_cons_of_mem _ hmem)) true
  | cons kind kinds ih =>
    have hhead : (kinds ++ spaces).head?.all (· == .space) = kinds.head?.all (· == .space) := by
      cases kinds with
      | cons kind kinds => rfl
      | nil =>
        cases spaces with
        | nil => rfl
        | cons kind spaces =>
          obtain rfl := h kind List.mem_cons_self
          rfl
    rw [List.cons_append, hasLooseFrom, hasLooseFrom, hhead, ih]

/-- So does whitespace at the end. -/
theorem hasLoose_append_space {spaces : List PieceKind} (h : ∀ kind ∈ spaces, kind = .space)
    {kinds : List PieceKind} : HasLoose (kinds ++ spaces) ↔ HasLoose kinds := by
  rw [hasLoose_iff, hasLoose_iff, hasLooseFrom_append_space h]

theorem hasLoose_squeeze {kinds : List PieceKind} : HasLoose (squeeze kinds) ↔ HasLoose kinds := by
  rw [hasLoose_iff, hasLoose_iff, hasLooseFrom_squeeze]

/-- The piece that a token outside brackets starts. -/
def Lexeme.kindOutside (outside : Bool) (token : Token) : List PieceKind :=
  if outside then [token.pieceKind] else []

namespace Token

/-- The kinds of the pieces of a text. -/
def outline (text : List Char) : List PieceKind :=
  Lexeme.collect Lexeme.kindOutside [] (Lexeme.all text)

@[simp] theorem outline_nil : outline [] = [] := by
  simp [outline, Lexeme.collect]

/-- Brackets that are open belong to the piece before. -/
theorem collect_kindOutside (brackets : List Bracket) (text : List Char) :
    Lexeme.collect Lexeme.kindOutside brackets (Lexeme.all text) =
      outline (scanBrackets brackets text).rest := by
  fun_induction scanBrackets brackets text with
  | case1 brackets text hempty =>
    obtain rfl := List.isEmpty_iff.mp hempty
    rfl
  | case2 brackets text hempty hnone =>
    rw [scan?_eq_none_iff.mp hnone, outline_nil]
    simp [Lexeme.collect]
  | case3 brackets text hempty t ht ih =>
    rw [Lexeme.collect_all_of_scan? ht, ih, Lexeme.kindOutside, if_neg hempty]
    rfl

theorem outline_of_scan? {text : List Char} {t : Scan Token} (ht : scan? text = some t) :
    outline text =
      t.value.pieceKind :: outline (scanBrackets t.value.opened?.toList t.rest).rest := by
  rw [outline, Lexeme.collect_all_of_scan? ht, nest_nil, collect_kindOutside]
  rfl

theorem outline_of_isSpace {c : Char} (hc : isSpace c) (cs : List Char) :
    outline (c :: cs) = .space :: outline ((c :: cs).dropWhile isSpace) := by
  rw [outline_of_scan? (scan?_of_isSpace hc cs)]
  exact congrArg (fun s : Scan Unit => PieceKind.space :: outline s.rest) (scanBrackets_nil _)

/-- A text starts with whitespace if its first piece does. -/
theorem head?_outline_eq_space {text : List Char} :
    (outline text).head? = some .space ↔ ∃ c cs, text = c :: cs ∧ isSpace c := by
  constructor
  · intro h
    cases text with
    | nil => simp at h
    | cons c cs =>
      obtain ⟨t, ht⟩ := Option.ne_none_iff_exists'.mp
        fun hnone => List.cons_ne_nil c cs (scan?_eq_none_iff.mp hnone)
      rw [outline_of_scan? ht, List.head?_cons, Option.some.injEq] at h
      obtain ⟨d, l, hlexeme⟩ := List.exists_cons_of_ne_nil (lexeme_ne_nil_of_scan?_eq_some ht)
      have hsplits := splits_of_scan?_eq_some ht
      rw [Scan.Splits, hlexeme] at hsplits
      obtain ⟨rfl, -⟩ := List.cons.inj hsplits
      exact ⟨d, cs, rfl, isSpace_of_space ht (eq_space_of_pieceKind h) d (by simp [hlexeme])⟩
  · rintro ⟨c, cs, rfl, hc⟩
    rw [outline_of_isSpace hc]
    rfl

/-- Whitespace in front of a text is one piece with the whitespace that the text starts with. -/
theorem outline_append {s : List Char} (hs : ∀ c ∈ s, isSpace c) (hne : s ≠ []) (text : List Char) :
    outline (s ++ text) = if (outline text).head? = some .space then outline text
      else .space :: outline text := by
  obtain ⟨d, l, rfl⟩ := List.exists_cons_of_ne_nil hne
  rw [List.cons_append, outline_of_isSpace (hs d List.mem_cons_self), ← List.cons_append,
    List.dropWhile_append_of_pos hs]
  split
  · rename_i hhead
    obtain ⟨c, cs, rfl, hc⟩ := head?_outline_eq_space.mp hhead
    exact (outline_of_isSpace hc cs).symm
  · rename_i hhead
    cases text with
    | nil => rfl
    | cons c cs =>
      rw [List.dropWhile_cons, if_neg fun hc => hhead (head?_outline_eq_space.mpr ⟨c, cs, rfl, hc⟩)]

theorem hasLoose_outline_dropWhile (text : List Char) :
    HasLoose (outline (text.dropWhile isSpace)) ↔ HasLoose (outline text) := by
  cases text with
  | nil => rfl
  | cons c cs =>
    by_cases hc : isSpace c
    · rw [outline_of_isSpace hc, hasLoose_space_cons]
    · rw [List.dropWhile_cons, if_neg hc]

theorem outline_rdropWhile {text : List Char} (h : LastStands text) :
    outline (text.rdropWhile isSpace) = outline text :=
  collect_rdropWhile _ h

end Token

namespace Prelude

/-- A quoted text at the end of a text has another end there, and is cut off by it or not. -/
theorem exists_scan?_of_quoted {t : Scan Token} {q : Quoted} (ht : Token.scan? x = some t)
    (hv : t.value = .quoted q) (hj : Joint X []) (hsame : SameBefore X [] x t.lexeme)
    (hrest : t.rest = X) :
    ∃ q', Token.scan? t.lexeme = some ⟨t.lexeme, .quoted q', []⟩ := by
  obtain ⟨quote, cs, rfl, hquote⟩ := Token.exists_of_quoted ht hv
  rw [Token.scan?_of_quote hquote] at ht
  obtain rfl := Option.some.inj ht
  have hsame' : SameBefore X [] cs (Quoted.scan quote cs).lexeme := by
    cases hsame with
    | cons _ _ h => exact h
  have hle : X.length ≤ (Quoted.scan quote cs).rest.length := Nat.le_of_eq (by rw [← hrest]; rfl)
  have hlexeme := (Quoted.scan_eq hj hsame' hle).1
  have hsplits := Quoted.splits_scan quote (Quoted.scan quote cs).lexeme
  rw [Scan.Splits, ← hlexeme, List.append_right_eq_self] at hsplits
  refine ⟨(Quoted.scan quote (Quoted.scan quote cs).lexeme).value, ?_⟩
  change Token.scan? (quote :: (Quoted.scan quote cs).lexeme) = _
  rw [Token.scan?_of_quote hquote, Scan.behind, ← hlexeme, hsplits]
  rfl

/-- A piece that is kept is the same piece in front of a text that follows it. -/
theorem outline_of_follows {left : List Char} {t : Scan Token} {behind : List Char}
    (ht : Token.scan? x = some t) (hspace : t.value ≠ .space)
    (h : Follows (left ++ (t.lexeme ++ (scanBrackets t.value.opened?.toList t.rest).lexeme))
      (scanBrackets t.value.opened?.toList t.rest).rest behind) :
    Token.outline (t.lexeme ++ (scanBrackets t.value.opened?.toList t.rest).lexeme ++ behind) =
      t.value.pieceKind :: Token.outline behind := by
  rcases h.cases ht with rfl | ⟨X, Y, hj, hle, hrest, hwhole⟩
  · rw [splits_piece ht, Token.outline_of_scan? ht]
  by_cases hcut : (∃ q, t.value = .quoted q) ∧ t.rest = X ∧ Y = []
  · obtain ⟨⟨q, hv⟩, heq, rfl⟩ := hcut
    have hinside : scanBrackets t.value.opened?.toList t.rest = ⟨[], (), X⟩ := by
      rw [hv, heq]
      exact scanBrackets_nil _
    rw [hinside] at hrest hwhole ⊢
    obtain rfl := hrest.eq_of_here
    simp only [List.append_nil] at hwhole ⊢
    obtain ⟨q', hscan⟩ := exists_scan?_of_quoted ht hv hj hwhole heq
    rw [Token.outline_of_scan? hscan, hv]
    exact congrArg (fun s : Scan Unit => PieceKind.solid :: Token.outline s.rest)
      (scanBrackets_nil _)
  · have hleaves : Token.Leaves X Y t := Token.leaves_of_opened hj hle
      (fun h => absurd h hspace) fun q hv _ heq _ hY => hcut ⟨⟨q, hv⟩, heq, hY⟩
    obtain ⟨t', ht', halike, hbehind⟩ := exists_piece hj ht hleaves hle hwhole
    rw [Token.outline_of_scan? ht', ← halike.value_eq, hbehind]

end Prelude

end Typography
