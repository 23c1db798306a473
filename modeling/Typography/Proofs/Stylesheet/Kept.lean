import Typography.Proofs.Stylesheet.Stretch

/-!
# The tokens that a prelude keeps

What is kept of a prelude leaves out the loose comments, and the blanks at its ends are
trimmed. Read on its own, it has the tokens of the prelude again, without the whitespace
and the comments outside brackets, `Prelude.significant_trim_kept`, as long as nothing that
is left out ends a token. `Prelude.IsClean` says when this is so.

The pieces are compared from the last one to the first. Between two places where something
is left out the texts are the same, and at such a place each text has an end that may
stand for the other one.
-/

namespace Typography

open Text

variable {x : List Char}

/-- Whether a token is quoted text that a line break cut off. -/
def Token.isCutOff : Token → Bool
  | quoted text => text.isBroken
  | _ => false

namespace Prelude

open Token (significant)

/-- What is left out of a prelude leaves its tokens as they are: with nothing beside it, it is a
clean stretch, and a quoted text that a line break cuts off is not the last token. -/
structure IsClean (head : Scan (List Piece)) : Prop extends
    IsCleanBetween none none head.value where
  quoted : ∀ token ∈ (significant head.lexeme).getLast?, token.isCutOff = false

instance (head : Scan (List Piece)) : Decidable (IsClean head) :=
  have {o : Option Token} : Decidable (∀ token ∈ o, token.isCutOff = false) :=
    Option.decidableForallMem o
  decidable_of_iff (IsCleanBetween none none head.value ∧
      ∀ token ∈ (significant head.lexeme).getLast?, token.isCutOff = false)
    ⟨fun h => ⟨h.1, h.2⟩, fun h => ⟨h.toIsCleanBetween, h.quoted⟩⟩

/-- A piece that is kept has the same tokens in front of texts that follow it with the same
tokens. -/
theorem significant_eq_of_follows {left : List Char} {t : Scan Token} {behind : List Char}
    (ht : Token.scan? x = some t) (hspace : t.value ≠ .space)
    (hquoted : ∀ text, t.value = .quoted text → text.isBroken →
      significant t.rest ≠ [])
    (h : Follows (left ++ (t.lexeme ++ (scanBrackets t.value.opened?.toList t.rest).lexeme))
      (scanBrackets t.value.opened?.toList t.rest).rest behind)
    (hbehind : significant (scanBrackets t.value.opened?.toList t.rest).rest = significant behind) :
    significant x = significant
      (t.lexeme ++ (scanBrackets t.value.opened?.toList t.rest).lexeme ++ behind) := by
  rcases h.cases ht with rfl | ⟨X, Y, hj, hle, hrest, hwhole⟩
  · rw [splits_piece ht]
  have hleaves : Token.Leaves X Y t := by
    refine Token.leaves_of_opened hj hle (fun h => absurd h hspace) fun text hv hb heq _ hY => ?_
    have hinside : scanBrackets t.value.opened?.toList t.rest = ⟨[], (), X⟩ := by
      rw [hv, heq]
      exact scanBrackets_nil _
    rw [hinside] at hrest hbehind
    refine hquoted text hv hb ?_
    rw [heq, hbehind, hrest.eq_of_here, hY, Token.significant_nil]
  obtain ⟨t', ht', halike, hbehind'⟩ := exists_piece hj ht hleaves hle hwhole
  rw [Token.significant_of_scan? ht, Token.significant_of_scan? ht', ← halike.value_eq,
    Token.significantIn_eq hj _ halike.rest hle (by rw [hbehind', hbehind])]

theorem significant_of_not_solid {t : Scan Token} (ht : Token.scan? x = some t)
    (h : t.value.pieceKind ≠ .solid) :
    significant x = significant (scanBrackets t.value.opened?.toList t.rest).rest := by
  have hopened : t.value.opened? = none := by
    cases hv : t.value <;> simp_all [Token.pieceKind, Token.opened?]
  rw [Token.significant_of_scan? ht, if_neg h, hopened]
  exact congrArg (fun s : Scan Unit => significant s.rest) (scanBrackets_nil t.rest).symm

/-- What is known of the pieces of `x` behind `previous` and the text `left`. -/
structure Clean (left : List Char) (previous : Option Piece) (x : List Char)
    (pieces : List Piece) : Prop where
  escapes : endsEscapesBetween left previous none pieces
  quoted : ∀ token ∈ (significant x).getLast?, token.isCutOff = false

/-- What is known of pieces is known of those behind the first one. -/
theorem Clean.tail {left : List Char} {previous : Option Piece} {x x' : List Char} {piece : Piece}
    {pieces : List Piece} (h : Clean left previous x (piece :: pieces)) {tokens : List Token}
    (htokens : significant x = tokens ++ significant x') :
    Clean (left ++ piece.text) (some piece) x' pieces where
  escapes := by
    have := h.escapes
    rw [endsEscapesBetween, Bool.and_eq_true] at this
    exact this.2
  quoted token hlast := by
    refine h.quoted token ?_
    rw [htokens, List.getLast?_append, hlast]
    rfl

/-- The text of pieces and their core have the same significant tokens. -/
theorem significant_coreBetween {inBlock : Bool} {left : List Char} {previous : Option Piece}
    (hrest : (scan inBlock x).rest = []) (h : Clean left previous x (scan inBlock x).value) :
    significant x = significant (textOf (coreBetween previous none (scan inBlock x).value)) := by
  fun_induction scan inBlock x generalizing left previous with
  | case1 x _ =>
    obtain rfl : x = [] := hrest
    rfl
  | case2 x hends hnone =>
    rw [Token.scan?_eq_none_iff.mp hnone] at hends
    exact absurd rfl hends
  | case3 x hends t ht inside =>
    rename_i ih
    obtain ⟨tokens, htokens⟩ := Token.exists_significantIn t.value.opened?.toList t.rest
    have hsplit := Token.significant_of_scan? ht
    rw [htokens, ← List.append_assoc] at hsplit
    have htail := h.tail hsplit
    have hsame := ih hrest htail
    have hmem : (⟨t.value.pieceKind, t.lexeme ++ inside.lexeme⟩ : Piece) ∈
        (scan inBlock x).value := by
      rw [scan_of_token (by simpa using hends) ht]
      exact List.mem_cons_self
    change _ = significant (textOf (coreBetween previous none (_ :: _)))
    by_cases hspace : t.value.pieceKind = .space
    · rw [significant_of_not_solid ht (by simp [hspace]), hsame, coreBetween_of_space hspace]
      split
      · rename_i hnil
        rw [hnil]
      · exact (Token.significant_append (isSpace_of_mem_scan hmem hspace) _).symm
    cases hout : isLeftOut previous ⟨t.value.pieceKind, t.lexeme ++ inside.lexeme⟩
        ((scan inBlock inside.rest).value.head?.or none) with
    | true =>
      have hkind := kind_of_isLeftOut hout
      rw [significant_of_not_solid ht (by simp_all), hsame, coreBetween_of_isLeftOut hout]
    | false =>
      have hpieces : (scan inBlock inside.rest).value = (scan inBlock inside.rest).value ++ [] :=
        (List.append_nil _).symm
      have hfollows := follows_coreBetween hpieces (by simp) htail.escapes
        (by simpa [loosens] using hspace)
      rw [coreBetween_of_kept hout hspace]
      refine significant_eq_of_follows ht (fun hv => hspace (by rw [hv]; rfl))
        (fun text hv hbroken hnil => ?_) hfollows hsame
      have hlast : significant x = [.quoted text] := by
        rw [Token.significant_of_scan? ht, hv]
        change [_] ++ significant t.rest = _
        rw [hnil, List.append_nil]
      have hcut := h.quoted (.quoted text) (by rw [hlast]; rfl)
      rw [Token.isCutOff, hbroken] at hcut
      cases hcut

/-- The tokens of a clean prelude are those of what is kept of it. -/
theorem significant_trim_kept {inBlock : Bool} {text : List Char}
    (h : IsClean (scan inBlock text)) :
    significant (trim (kept (scan inBlock text).value)) =
      significant (scan inBlock text).lexeme := by
  have hscan := scan_lexeme_scan inBlock text
  have hclean : Clean [] none (scan inBlock text).lexeme
      (scan inBlock (scan inBlock text).lexeme).value := by
    rw [hscan]
    exact ⟨h.escapes, h.quoted⟩
  have hcore := significant_coreBetween (by rw [hscan]) hclean
  rw [hscan] at hcore
  rw [kept, keptFrom_eq, trim_keptBetween (List.append_nil _).symm h.trimmed,
    Token.significant_rdropWhile h.stands, Token.significant_dropWhile, hcore]

end Prelude

end Typography
