import Typography.Proofs.Stylesheet.Significant
import Typography.Proofs.Text.Trim

/-!
# What is kept of a stretch of a statement

A stretch of the pieces of a statement is kept without its loose comments,
`Prelude.keptBetween`. Which ones these are is told by the pieces beside them in the statement,
and so by `previous` and `next` at the ends of the stretch. Without the whitespace at the end
the kept pieces make up its core, `Prelude.coreBetween`.

The text of the core follows the text that the stretch is cut from,
`Prelude.follows_coreBetween`: the two are the same up to ends that may stand for one another.
Nothing that is left out may end an escape for this, `Prelude.endsEscapesBetween`. If trimming
takes nothing of a token either, a stretch is clean, `Prelude.IsCleanBetween`.
-/

namespace Typography

open Text

variable {X Y x y : List Char}

theorem Token.eq_space_of_pieceKind {token : Token} (h : token.pieceKind = .space) :
    token = space := by
  cases token <;> simp_all [pieceKind]

namespace Prelude

/-- Whether a piece is a comment that is left out between these. -/
def isLeftOut (previous : Option Piece) (piece : Piece) (next : Option Piece) : Bool :=
  piece.kind == .comment && (loosens previous || loosens next)

/-- The pieces that are kept of a stretch between `previous` and `next`. -/
def keptBetween (previous next : Option Piece) : List Piece → List Piece
  | [] => []
  | piece :: pieces =>
    if isLeftOut previous piece (pieces.head?.or next) then keptBetween (some piece) next pieces
    else piece :: keptBetween (some piece) next pieces

/-- The pieces that are kept of a stretch, without the whitespace at the end. -/
def coreBetween (previous next : Option Piece) (pieces : List Piece) : List Piece :=
  (keptBetween previous next pieces).rdropWhile (·.kind == .space)

/-- The text of pieces. -/
def textOf (pieces : List Piece) : List Char :=
  pieces.flatMap Piece.text

variable {previous next : Option Piece} {piece : Piece} {pieces : List Piece}

@[simp] theorem textOf_nil : textOf [] = [] := rfl

@[simp] theorem textOf_cons (piece : Piece) (pieces : List Piece) :
    textOf (piece :: pieces) = piece.text ++ textOf pieces := rfl

@[simp] theorem textOf_append (pieces more : List Piece) :
    textOf (pieces ++ more) = textOf pieces ++ textOf more :=
  List.flatMap_append

theorem mem_of_mem_keptBetween (h : piece ∈ keptBetween previous next pieces) :
    piece ∈ pieces := by
  induction pieces generalizing previous with
  | nil => exact h
  | cons other pieces ih =>
    rw [keptBetween] at h
    split at h
    · exact List.mem_cons_of_mem _ (ih h)
    · rcases List.mem_cons.mp h with rfl | h
      · exact List.mem_cons_self
      · exact List.mem_cons_of_mem _ (ih h)

/-- What is kept of a text is what is kept of a stretch and of the pieces behind it. -/
theorem keptFrom_append (previous : Option Piece) (pieces more : List Piece) :
    keptFrom previous (pieces ++ more) =
      textOf (keptBetween previous more.head? pieces) ++
        keptFrom (pieces.getLast?.or previous) more := by
  induction pieces generalizing previous with
  | nil => rfl
  | cons piece pieces ih =>
    have hlast : (piece :: pieces).getLast?.or previous = pieces.getLast?.or (some piece) := by
      rw [List.getLast?_cons]
      cases pieces.getLast? <;> rfl
    rw [List.cons_append, keptFrom, keptBetween, ih, hlast, List.head?_append, isLeftOut]
    split
    · rfl
    · rw [textOf_cons, List.append_assoc]

theorem keptFrom_eq (previous : Option Piece) (pieces : List Piece) :
    keptFrom previous pieces = textOf (keptBetween previous none pieces) := by
  have := keptFrom_append previous pieces []
  rwa [List.append_nil, keptFrom, List.append_nil] at this

theorem kind_of_isLeftOut (h : isLeftOut previous piece next) : piece.kind = .comment := by
  simp only [isLeftOut, Bool.and_eq_true, beq_iff_eq] at h
  exact h.1

/-- Behind a comment that is left out for what comes next, whitespace comes next or nothing. -/
theorem eq_nil_or_space_of_isLeftOut (hout : isLeftOut previous piece (pieces.head?.or next))
    (h : loosens previous = false) :
    pieces = [] ∧ loosens next ∨
      ∃ space behind, pieces = space :: behind ∧ space.kind = .space := by
  have hnext : loosens (pieces.head?.or next) := by
    simp only [isLeftOut, h, Bool.false_or, Bool.and_eq_true] at hout
    exact hout.2
  cases pieces with
  | nil => exact .inl ⟨rfl, hnext⟩
  | cons space behind => exact .inr ⟨space, behind, rfl, by simpa [loosens] using hnext⟩

/-- Whitespace is kept. -/
theorem keptBetween_of_space (hkind : piece.kind = .space) :
    keptBetween previous next (piece :: pieces) =
      piece :: keptBetween (some piece) next pieces := by
  rw [keptBetween, if_neg fun hout => absurd (hkind.symm.trans (kind_of_isLeftOut hout)) (by simp)]

/-- What is kept is the core and whitespace behind it. -/
theorem exists_coreBetween (previous next : Option Piece) (pieces : List Piece) :
    ∃ spaces, (∀ piece ∈ spaces, piece.kind = .space) ∧
      keptBetween previous next pieces = coreBetween previous next pieces ++ spaces := by
  refine ⟨(keptBetween previous next pieces).rtakeWhile (·.kind == .space), fun piece hmem => ?_,
    (List.rdropWhile_append_rtakeWhile ..).symm⟩
  simpa using List.mem_rtakeWhile_imp hmem

theorem rdropWhile_cons {α : Type} (p : α → Bool) (a : α) (l : List α) :
    (a :: l).rdropWhile p = if l.rdropWhile p = [] ∧ p a then [] else a :: l.rdropWhile p := by
  simp only [List.rdropWhile, List.reverse_cons, List.dropWhile_append]
  by_cases hl : l.reverse.dropWhile p = [] <;> cases ha : p a <;> simp [hl, ha]

theorem coreBetween_of_isLeftOut (h : isLeftOut previous piece (pieces.head?.or next)) :
    coreBetween previous next (piece :: pieces) = coreBetween (some piece) next pieces := by
  rw [coreBetween, keptBetween, if_pos h, coreBetween]

theorem coreBetween_of_kept (h : isLeftOut previous piece (pieces.head?.or next) = false)
    (hkind : piece.kind ≠ .space) :
    coreBetween previous next (piece :: pieces) =
      piece :: coreBetween (some piece) next pieces := by
  rw [coreBetween, keptBetween, if_neg (by simp [h]), rdropWhile_cons, if_neg (by simp [hkind]),
    coreBetween]

theorem coreBetween_of_space (hkind : piece.kind = .space) :
    coreBetween previous next (piece :: pieces) =
      if coreBetween (some piece) next pieces = [] then []
      else piece :: coreBetween (some piece) next pieces := by
  rw [coreBetween, keptBetween_of_space hkind, rdropWhile_cons]
  simp [hkind, coreBetween]

/-- Whether nothing is left out of a stretch behind a text that would go on in its place, where
`left` is the text before the stretch: no comment that is left out for the whitespace behind it
stands behind an escape that may go on, and no line break at the end behind a backslash. An escape
does not go on where nothing that is kept comes behind the comment. -/
def endsEscapesBetween (left : List Char) (previous next : Option Piece) : List Piece → Bool
  | [] => true
  | piece :: pieces =>
    (match piece.kind with
      | .comment => loosens previous || !loosens (pieces.head?.or next) ||
          (coreBetween (some piece) next pieces).isEmpty || !Escape.isOpen left
      | .space => !(coreBetween (some piece) next pieces).isEmpty ||
          !startsLineBreak piece.text || left.getLast? != some '\\'
      | .solid => true) &&
    endsEscapesBetween (left ++ piece.text) (some piece) next pieces

/-- What is left out of a stretch leaves its pieces as they are: it ends no escape, and trimming
takes no blank that a token needs. -/
structure IsCleanBetween (previous next : Option Piece) (pieces : List Piece) : Prop where
  escapes : endsEscapesBetween [] previous next pieces
  trimmed : IsTrimmed
    (((textOf (coreBetween previous next pieces)).dropWhile isSpace).rdropWhile isSpace)
  stands : Token.LastStands ((textOf (coreBetween previous next pieces)).dropWhile isSpace)

instance (previous next : Option Piece) (pieces : List Piece) :
    Decidable (IsCleanBetween previous next pieces) :=
  decidable_of_iff (endsEscapesBetween [] previous next pieces ∧
      IsTrimmed
        (((textOf (coreBetween previous next pieces)).dropWhile isSpace).rdropWhile isSpace) ∧
      Token.LastStands ((textOf (coreBetween previous next pieces)).dropWhile isSpace))
    ⟨fun h => ⟨h.1, h.2.1, h.2.2⟩, fun h => ⟨h.escapes, h.trimmed, h.stands⟩⟩

/-- The first piece and the text behind it make up the text. -/
theorem splits_piece {t : Scan Token} (ht : Token.scan? x = some t) :
    t.lexeme ++ (scanBrackets t.value.opened?.toList t.rest).lexeme ++
      (scanBrackets t.value.opened?.toList t.rest).rest = x := by
  rw [List.append_assoc, splits_scanBrackets, Token.splits_of_scan?_eq_some ht]

/-- Only a solid piece is more than its first token. -/
theorem scanBrackets_of_not_solid {token : Token} (h : token.pieceKind ≠ .solid)
    (text : List Char) : scanBrackets token.opened?.toList text = ⟨[], (), text⟩ := by
  cases token <;> simp_all [Token.pieceKind, Token.opened?, scanBrackets_nil]

/-- Pieces of whitespace hold nothing else. -/
theorem isSpace_of_mem_scan {inBlock : Bool} {text : List Char} {piece : Piece}
    (hmem : piece ∈ (scan inBlock text).value) (hkind : piece.kind = .space) :
    ∀ c ∈ piece.text, isSpace c := by
  fun_induction scan inBlock text with
  | case1 => simp at hmem
  | case2 => simp at hmem
  | case3 text _ t ht inside ih =>
    rcases List.mem_cons.mp hmem with rfl | hmem
    · have hinside := scanBrackets_of_not_solid (hkind.trans_ne (by simp)) t.rest
      change ∀ c ∈ t.lexeme ++ (scanBrackets t.value.opened?.toList t.rest).lexeme, _
      rw [hinside, List.append_nil]
      exact Token.isSpace_of_space ht (Token.eq_space_of_pieceKind hkind)
    · exact ih hmem

theorem text_ne_nil_of_mem_scan {inBlock : Bool} {text : List Char} {piece : Piece}
    (hmem : piece ∈ (scan inBlock text).value) : piece.text ≠ [] := by
  fun_induction scan inBlock text with
  | case1 => simp at hmem
  | case2 => simp at hmem
  | case3 text _ t ht inside ih =>
    rcases List.mem_cons.mp hmem with rfl | hmem
    · simp [Token.lexeme_ne_nil_of_scan?_eq_some ht]
    · exact ih hmem

/-- The exclamation mark before a flag. -/
def bang : Piece :=
  ⟨.solid, ['!']⟩

/-- The first piece is the first token with the brackets that it opens. -/
theorem exists_of_scan_cons {inBlock : Bool} (h : (scan inBlock x).value = piece :: pieces) :
    ∃ t, Token.scan? x = some t ∧ piece.kind = t.value.pieceKind ∧
      piece.text = t.lexeme ++ (scanBrackets t.value.opened?.toList t.rest).lexeme ∧
      piece.text ++ (scanBrackets t.value.opened?.toList t.rest).rest = x ∧
      (scan inBlock (scanBrackets t.value.opened?.toList t.rest).rest).value = pieces := by
  unfold scan at h
  split at h
  · simp at h
  · split at h
    · simp at h
    · rename_i t ht
      obtain ⟨rfl, hpieces⟩ := List.cons.inj h
      exact ⟨t, ht, rfl, rfl, splits_piece ht, hpieces⟩

theorem exists_of_scan_comment {inBlock : Bool} (h : (scan inBlock x).value = piece :: pieces)
    (hkind : piece.kind = .comment) : ∃ cs, x = '/' :: cs := by
  obtain ⟨t, ht, hvalue, -⟩ := exists_of_scan_cons h
  obtain ⟨body, hbody⟩ := Token.exists_of_pieceKind (hvalue.symm.trans hkind)
  obtain ⟨cs, rfl, -⟩ := Token.exists_of_comment ht hbody
  exact ⟨_, rfl⟩

/-- The pieces behind a stretch are those of a text. -/
theorem exists_scan_of_append {inBlock : Bool} {more : List Piece}
    (h : (scan inBlock x).value = pieces ++ more) : ∃ x', (scan inBlock x').value = more := by
  induction pieces generalizing x with
  | nil => exact ⟨x, h⟩
  | cons piece pieces ih =>
    obtain ⟨t, -, -, -, -, hpieces⟩ := exists_of_scan_cons h
    exact ih hpieces

/-- Where trimming takes whitespace only, it takes the whitespace at both ends. -/
theorem trim_append_of_isTrimmed {text s : List Char} (hs : ∀ c ∈ s, isSpace c)
    (h : IsTrimmed ((text.dropWhile isSpace).rdropWhile isSpace)) :
    trim (text ++ s) = (text.dropWhile isSpace).rdropWhile isSpace := by
  have hfront : ∀ c ∈ text.takeWhile isSpace, isSpace c :=
    fun c hc => List.all_eq_true.mp List.all_takeWhile c hc
  have hend : ∀ c ∈ (text.dropWhile isSpace).rtakeWhile isSpace ++ s, isSpace c := by
    intro c hc
    rcases List.mem_append.mp hc with hc | hc
    · exact List.mem_rtakeWhile_imp hc
    · exact hs c hc
  have htext : text ++ s = text.takeWhile isSpace ++
      ((text.dropWhile isSpace).rdropWhile isSpace ++
        ((text.dropWhile isSpace).rtakeWhile isSpace ++ s)) := by
    rw [← List.append_assoc (List.rdropWhile _ _), List.rdropWhile_append_rtakeWhile,
      ← List.append_assoc, List.takeWhile_append_dropWhile]
  rw [htext]
  exact h.trim_append (fun c hc => isBlank_of_isSpace (hfront c hc))
    fun c hc => isBlank_of_isSpace (hend c hc)

/-- Where trimming takes whitespace only, it leaves the core of a stretch, without the
whitespace at its ends. -/
theorem trim_keptBetween {inBlock : Bool} {more : List Piece}
    (hvalue : (scan inBlock x).value = pieces ++ more)
    (h : IsTrimmed
      (((textOf (coreBetween previous next pieces)).dropWhile isSpace).rdropWhile isSpace)) :
    trim (textOf (keptBetween previous next pieces)) =
      ((textOf (coreBetween previous next pieces)).dropWhile isSpace).rdropWhile isSpace := by
  obtain ⟨spaces, hspaces, hkept⟩ := exists_coreBetween previous next pieces
  have hs : ∀ c ∈ textOf spaces, isSpace c := by
    intro c hc
    obtain ⟨space, hmem, hc⟩ := List.mem_flatMap.mp hc
    have hpiece : space ∈ keptBetween previous next pieces := by
      rw [hkept]
      exact List.mem_append_right _ hmem
    have hscan : space ∈ (scan inBlock x).value := by
      rw [hvalue]
      exact List.mem_append_left _ (mem_of_mem_keptBetween hpiece)
    exact isSpace_of_mem_scan hscan (hspaces space hmem) c hc
  rw [hkept, textOf_append, trim_append_of_isTrimmed hs h]

/-- Behind the text `left` the texts `x` and `y` are the same, or the same up to ends that
may stand for one another. -/
def Follows (left x y : List Char) : Prop :=
  x = y ∨ ∃ X Y, Joint X Y ∧ SameBefore X Y (left ++ x) (left ++ y) ∧ X.length ≤ x.length

theorem Follows.append {left x y : List Char} {u : List Char} (h : Follows (left ++ u) x y) :
    Follows left (u ++ x) (u ++ y) := by
  rcases h with rfl | ⟨X, Y, hj, hsame, hle⟩
  · exact .inl rfl
  · rw [List.append_assoc, List.append_assoc] at hsame
    exact .inr ⟨X, Y, hj, hsame, by rw [List.length_append]; omega⟩

theorem follows_of_joint {left : List Char} (hj : Joint X Y)
    (hleft : X.head? = Y.head? ∨ (Y = [] ∧ (startsLineBreak X → left.getLast? ≠ some '\\')) ∨
      Escape.isOpen left = false) : Follows left X Y :=
  .inr ⟨X, Y, hj, .append hj hleft, Nat.le_refl _⟩

/-- A piece that leaves the end is the same piece with another end, and has the same text
behind it. -/
theorem exists_piece {t : Scan Token} {behind : List Char} (hj : Joint X Y)
    (ht : Token.scan? x = some t) (hleaves : Token.Leaves X Y t)
    (hle : X.length ≤ (scanBrackets t.value.opened?.toList t.rest).rest.length)
    (h : SameBefore X Y x
      (t.lexeme ++ (scanBrackets t.value.opened?.toList t.rest).lexeme ++ behind)) :
    ∃ t', Token.scan? (t.lexeme ++ (scanBrackets t.value.opened?.toList t.rest).lexeme ++ behind) =
        some t' ∧ Scan.Alike X Y t t' ∧
      (scanBrackets t.value.opened?.toList t'.rest).rest = behind := by
  obtain ⟨t', ht', halike⟩ := Token.alike_scan? hj h ht hleaves
  have hbrackets := alike_scanBrackets hj t.value.opened?.toList halike.rest hle
  refine ⟨t', ht', halike, ?_⟩
  have hsplits := Token.splits_of_scan?_eq_some ht'
  rw [Scan.Splits, ← halike.lexeme_eq, List.append_assoc, List.append_cancel_left_eq] at hsplits
  have hinside := splits_scanBrackets t.value.opened?.toList t'.rest
  rw [Scan.Splits, ← hbrackets.lexeme_eq, hsplits, List.append_cancel_left_eq] at hinside
  rw [hsplits, hinside]

/-- Two texts behind a piece are the same, or the same up to ends that may stand for one
another, and so are the texts with the piece in front. -/
theorem Follows.cases {left behind : List Char} {t : Scan Token} (ht : Token.scan? x = some t)
    (h : Follows (left ++ (t.lexeme ++ (scanBrackets t.value.opened?.toList t.rest).lexeme))
      (scanBrackets t.value.opened?.toList t.rest).rest behind) :
    (scanBrackets t.value.opened?.toList t.rest).rest = behind ∨ ∃ X Y, Joint X Y ∧
      X.length ≤ (scanBrackets t.value.opened?.toList t.rest).rest.length ∧
      SameBefore X Y (scanBrackets t.value.opened?.toList t.rest).rest behind ∧
      SameBefore X Y x
        (t.lexeme ++ (scanBrackets t.value.opened?.toList t.rest).lexeme ++ behind) := by
  rcases h with heq | ⟨X, Y, hj, hsame, hle⟩
  · exact .inl heq
  rw [List.append_assoc left, List.append_assoc left] at hsame
  have hlength : ∀ u : List Char, X.length ≤
      (u ++ (scanBrackets t.value.opened?.toList t.rest).rest).length := by
    intro u
    rw [List.length_append]
    omega
  have hwhole := hsame.of_append (hlength _)
  have hrest := hwhole.of_append hle
  rw [splits_piece ht] at hwhole
  exact .inr ⟨X, Y, hj, hle, hrest, hwhole⟩

/-- Nothing may stand in the place of a text that starts no piece, or the one before a flag. -/
theorem follows_nil {inBlock : Bool} (h : ∀ piece ∈ (scan inBlock x).value.head?, piece = bang)
    (left : List Char) : Follows left x [] := by
  have hstop : ∀ d r, x = d :: r → IsStop d → isLineBreak d = false → Follows left x [] := by
    rintro d r rfl hd hline
    refine follows_of_joint (.none hd r) (.inr (.inl ⟨rfl, fun hstarts => ?_⟩))
    rw [show isLineBreak d = true from hstarts] at hline
    cases hline
  cases hvalue : (scan inBlock x).value with
  | nil =>
    cases x with
    | nil => exact .inl rfl
    | cons d r =>
      have hends : endsBefore inBlock (d :: r) := by
        rw [← Bool.not_eq_false]
        intro hends
        obtain ⟨t, ht⟩ := Option.ne_none_iff_exists'.mp
          fun hnone => List.cons_ne_nil d r (Token.scan?_eq_none_iff.mp hnone)
        rw [scan_of_token hends ht] at hvalue
        cases hvalue
      have hd := isHard_of_endsBefore hends
      exact hstop d r rfl hd.isStop hd.isLineBreak_eq
  | cons piece pieces =>
    obtain ⟨t, -, -, -, hx, -⟩ := exists_of_scan_cons hvalue
    rw [h piece (by rw [hvalue]; rfl)] at hx
    exact hstop '!' _ hx.symm (.inr rfl) rfl

/-- The core behind whitespace starts with whitespace, if it is not empty. -/
theorem isSpace_of_coreBetween {inBlock : Bool} {space : Piece} {more : List Piece}
    (hvalue : (scan inBlock x).value = space :: pieces ++ more) (hkind : space.kind = .space) :
    ∀ c ∈ (textOf (coreBetween previous next (space :: pieces))).head?, isSpace c := by
  have hmem : space ∈ (scan inBlock x).value := by
    rw [hvalue]
    exact List.mem_cons_self
  rw [coreBetween_of_space hkind]
  split
  · simp
  · obtain ⟨d, l, htext⟩ := List.exists_cons_of_ne_nil (text_ne_nil_of_mem_scan hmem)
    rw [textOf_cons, htext]
    rintro _ ⟨⟩
    exact isSpace_of_mem_scan hmem hkind d (by simp [htext])

/-- In the place of a comment there may be nothing, or whitespace if the text before it ends
with no escape that takes the whitespace in. -/
theorem follows_comment {left : List Char} (cs : List Char) {core : List Piece}
    (hspace : ∀ c ∈ (textOf core).head?, isSpace c)
    (hopen : core ≠ [] → Escape.isOpen left = false) :
    Follows left ('/' :: cs) (textOf core) := by
  cases hcore : textOf core with
  | nil =>
    refine follows_of_joint (.none (.inl (.inr (.inl rfl))) cs) (.inr (.inl ⟨rfl, fun hline => ?_⟩))
    simp [startsLineBreak, isLineBreak] at hline
  | cons e r =>
    have hne : core ≠ [] := by
      rintro rfl
      cases hcore
    rw [hcore] at hspace
    exact follows_of_joint (.gap (hspace e rfl) cs r) (.inr (.inr (hopen hne)))

/-- Behind a piece that is no whitespace the core of a stretch follows what it is cut from. -/
theorem follows_coreBetween {inBlock : Bool} {left : List Char} {more : List Piece}
    (hvalue : (scan inBlock x).value = pieces ++ more) (hmore : ∀ piece ∈ more.head?, piece = bang)
    (h : endsEscapesBetween left previous more.head? pieces)
    (hprevious : loosens previous = false) :
    Follows left x (textOf (coreBetween previous more.head? pieces)) := by
  induction pieces generalizing x left previous with
  | nil =>
    have hhead : ∀ piece ∈ (scan inBlock x).value.head?, piece = bang := by
      rw [hvalue]
      exact hmore
    exact follows_nil hhead left
  | cons piece pieces ih =>
    have hmem : piece ∈ (scan inBlock x).value := by
      rw [hvalue]
      exact List.mem_cons_self
    obtain ⟨d, l, htext⟩ := List.exists_cons_of_ne_nil (text_ne_nil_of_mem_scan hmem)
    obtain ⟨t, -, -, -, hx, hpieces⟩ := exists_of_scan_cons hvalue
    rw [endsEscapesBetween, Bool.and_eq_true] at h
    obtain ⟨hescapes, h⟩ := h
    by_cases hspace : piece.kind = .space
    · have hd : IsBreak d := .inl (isSpace_of_mem_scan hmem hspace d (by simp [htext]))
      rw [coreBetween_of_space hspace, ← hx, htext]
      split
      · rename_i hnil
        refine follows_of_joint (.none (.inl hd) _) (.inr (.inl ⟨rfl, fun hline => ?_⟩))
        have hline' : startsLineBreak piece.text := by rwa [htext]
        simpa [hspace, hnil, hline'] using hescapes
      · rw [textOf_cons, htext]
        exact follows_of_joint (.same hd _ _) (.inl rfl)
    cases hout : isLeftOut previous piece (pieces.head?.or more.head?) with
    | false =>
      rw [coreBetween_of_kept hout hspace, textOf_cons, ← hx]
      exact (ih hpieces h (by simpa [loosens] using hspace)).append
    | true =>
      have hkind := kind_of_isLeftOut hout
      obtain ⟨cs, rfl⟩ := exists_of_scan_comment hvalue hkind
      have hnext : loosens (pieces.head?.or more.head?) := by
        simpa [isLeftOut, hkind, hprevious] using hout
      rw [coreBetween_of_isLeftOut hout]
      refine follows_comment cs ?_ fun hne => ?_
      · rcases eq_nil_or_space_of_isLeftOut hout hprevious with
          ⟨rfl, -⟩ | ⟨space, behind, rfl, hkind'⟩
        · rintro c ⟨⟩
        · exact isSpace_of_coreBetween hpieces hkind'
      · simpa [hprevious, hkind, hnext, hne] using hescapes

end Prelude

end Typography
