import Typography.Proofs.Stylesheet.Declaration
import Typography.Proofs.Stylesheet.Outline
import Typography.Proofs.Stylesheet.Stored

/-!
# Loose comments in a stretch of a statement

Which comments of a stretch are left out is told by the pieces beside them in the statement. In
what is kept a comment is loose exactly when it is in the stretch with whitespace in the place
of the comments that are left out, `Prelude.hasLoose_outline_trim`: leaving a comment out, or
cutting the stretch off, may set a comment free that was wedged between two others.

As for the tokens that are kept, nothing that is left out may end a token,
`Prelude.IsCleanBetween`. The texts that are stored for the nodes of a stylesheet are kept of
such stretches, `Reading.hasLoose_stored`.
-/

namespace Typography

open Text

variable {x : List Char}

namespace Prelude

variable {previous next : Option Piece} {piece : Piece} {pieces : List Piece}

/-- The kinds of the pieces of a stretch between `previous` and `next`, with whitespace in the
place of the comments that are left out. -/
def loosened (previous next : Option Piece) : List Piece → List PieceKind
  | [] => []
  | piece :: pieces =>
    (if isLeftOut previous piece (pieces.head?.or next) then .space else piece.kind) ::
      loosened (some piece) next pieces

/-- Behind a piece that is no whitespace there is nothing but whitespace at the front of what is
kept, if there is whitespace in the place of the comments that are left out. -/
theorem head?_loosened (h : loosens previous = false) (next : Option Piece)
    (pieces : List Piece) :
    (loosened previous next pieces).head?.all (· == .space) =
      ((keptBetween previous next pieces).map Piece.kind).head?.all (· == .space) := by
  cases pieces with
  | nil => rfl
  | cons piece pieces =>
    rw [loosened, keptBetween]
    by_cases hout : isLeftOut previous piece (pieces.head?.or next)
    · rw [if_pos hout, if_pos hout]
      rcases eq_nil_or_space_of_isLeftOut hout h with ⟨rfl, -⟩ | ⟨space, behind, rfl, hspace⟩
      · rfl
      · rw [keptBetween_of_space hspace, List.map_cons, hspace]
        rfl
    · rw [if_neg hout, if_neg hout]
      rfl

/-- Whitespace in the place of the comments that are left out sets the same comments free. -/
theorem hasLooseFrom_loosened {bare : Bool} (h : loosens previous → bare) :
    hasLooseFrom bare (loosened previous next pieces) =
      hasLooseFrom bare ((keptBetween previous next pieces).map Piece.kind) := by
  induction pieces generalizing bare previous with
  | nil => rfl
  | cons piece pieces ih =>
    rw [loosened, keptBetween]
    by_cases hout : isLeftOut previous piece (pieces.head?.or next)
    · rw [if_pos hout, if_pos hout]
      change hasLooseFrom true _ = _
      rw [ih fun _ => rfl]
      cases hprevious : loosens previous with
      | true => rw [h hprevious]
      | false =>
        rcases eq_nil_or_space_of_isLeftOut hout hprevious with
          ⟨rfl, -⟩ | ⟨space, behind, rfl, hspace⟩
        · rfl
        · rw [keptBetween_of_space hspace, List.map_cons, hspace]
          rfl
    · have hbehind := @ih (some piece) (piece.kind == .space) fun hspace => hspace
      rw [if_neg hout, if_neg hout, List.map_cons, hasLooseFrom, hasLooseFrom, hbehind]
      cases hkind : piece.kind with
      | space => rfl
      | solid => rfl
      | comment => rw [head?_loosened (by simp [loosens, hkind])]

theorem hasLoose_loosened (previous next : Option Piece) (pieces : List Piece) :
    HasLoose (loosened previous next pieces) ↔
      HasLoose ((keptBetween previous next pieces).map Piece.kind) := by
  rw [hasLoose_iff, hasLoose_iff, hasLooseFrom_loosened fun _ => rfl]

theorem hasLoose_coreBetween (previous next : Option Piece) (pieces : List Piece) :
    HasLoose ((coreBetween previous next pieces).map Piece.kind) ↔
      HasLoose (loosened previous next pieces) := by
  obtain ⟨spaces, hspaces, heq⟩ := exists_coreBetween previous next pieces
  rw [hasLoose_loosened, heq, List.map_append, hasLoose_append_space]
  simpa using hspaces

/-- The core of a stretch has its pieces. -/
theorem outline_coreBetween {inBlock : Bool} {left : List Char} {more : List Piece}
    (hvalue : (scan inBlock x).value = pieces ++ more) (hmore : ∀ piece ∈ more.head?, piece = bang)
    (h : endsEscapesBetween left previous more.head? pieces) :
    Token.outline (textOf (coreBetween previous more.head? pieces)) =
      squeeze ((coreBetween previous more.head? pieces).map Piece.kind) := by
  induction pieces generalizing x left previous with
  | nil => exact Token.outline_nil
  | cons piece pieces ih =>
    have hmem : piece ∈ (scan inBlock x).value := by
      rw [hvalue]
      exact List.mem_cons_self
    obtain ⟨t, ht, hkind, htext, -, hpieces⟩ := exists_of_scan_cons hvalue
    rw [endsEscapesBetween, Bool.and_eq_true] at h
    have hbehind := ih hpieces h.2
    by_cases hspace : piece.kind = .space
    · rw [coreBetween_of_space hspace]
      split
      · exact Token.outline_nil
      · rw [textOf_cons, Token.outline_append (isSpace_of_mem_scan hmem hspace)
          (text_ne_nil_of_mem_scan hmem), hbehind, List.map_cons, hspace, squeeze]
        simp
    cases hout : isLeftOut previous piece (pieces.head?.or more.head?) with
    | true => rw [coreBetween_of_isLeftOut hout, hbehind]
    | false =>
      have hsolid : loosens (some piece) = false := by simpa [loosens] using hspace
      have hfollows := follows_coreBetween hpieces hmore h.2 hsolid
      rw [htext] at hfollows
      rw [coreBetween_of_kept hout hspace, textOf_cons, htext,
        outline_of_follows ht (fun ht => hspace (by rw [hkind, ht]; rfl)) hfollows, hbehind,
        List.map_cons, squeeze, hkind, if_neg]
      simp [← hkind, hspace]

/-- What a stretch leaves when it is kept and trimmed has a loose comment exactly when the
stretch has one with whitespace in the place of the comments that are left out. -/
theorem hasLoose_outline_trim {inBlock : Bool} {more : List Piece}
    (hvalue : (scan inBlock x).value = pieces ++ more) (hmore : ∀ piece ∈ more.head?, piece = bang)
    (h : IsCleanBetween previous more.head? pieces) :
    HasLoose (Token.outline (trim (textOf (keptBetween previous more.head? pieces)))) ↔
      HasLoose (loosened previous more.head? pieces) := by
  rw [trim_keptBetween hvalue h.trimmed, Token.outline_rdropWhile h.stands,
    Token.hasLoose_outline_dropWhile, outline_coreBetween hvalue hmore h.escapes,
    hasLoose_squeeze, hasLoose_coreBetween]

/-- The colon behind a property. -/
def colon : Piece :=
  ⟨.solid, [':']⟩

/-- The pieces at the end of a value that are its flag, in letters of either case, with what is
left out behind it or whitespace. -/
inductive IsFlag : Bool → List Piece → Prop
  | absent : IsFlag false []
  | present {name : List Char} {pieces : List Piece}
      (hname : ('!' :: name).map Char.toLower = importantFlag)
      (hbehind : ∀ c ∈ textOf (keptBetween (some ⟨.solid, name⟩) none pieces), isSpace c) :
      IsFlag true (bang :: ⟨.solid, name⟩ :: pieces)

theorem IsFlag.eq_bang {important : Bool} {flag : List Piece} (h : IsFlag important flag) :
    ∀ piece ∈ flag.head?, piece = bang := by
  cases h with
  | absent => simp
  | present => simp

/-- A value is what is kept before its flag, trimmed. -/
theorem IsFlag.splitImportant_eq {important : Bool} {flag stretch : List Piece}
    (h : IsFlag important flag) (previous : Option Piece)
    (himportant : (splitImportant (keptFrom previous (stretch ++ flag))).2 = important) :
    (splitImportant (keptFrom previous (stretch ++ flag))).1 =
      trim (textOf (keptBetween previous flag.head? stretch)) := by
  rw [keptFrom_append] at himportant ⊢
  cases h with
  | absent =>
    rw [keptFrom, List.append_nil] at himportant ⊢
    exact splitImportant_of_eq_false himportant
  | present hname hbehind =>
    rename_i name pieces
    have hflag : keptFrom (stretch.getLast?.or previous) (bang :: ⟨.solid, name⟩ :: pieces) =
        '!' :: name ++ textOf (keptBetween (some ⟨.solid, name⟩) none pieces) := by
      rw [keptFrom, keptFrom, keptFrom_eq]
      rfl
    rw [hflag, splitImportant_append hname fun c hc => isBlank_of_isSpace (hbehind c hc)]

end Prelude

/-- A text that is stored for a node: all that is kept of a prelude, or the value of a
declaration, and whether a flag was cut off it. -/
inductive Stored where
  | whole (text : String)
  | value (text : String) (important : Bool)
  deriving DecidableEq, Repr

namespace Stored

/-- The text that is stored. -/
def text : Stored → String
  | whole text => text
  | value text _ => text

/-- The stretch of a prelude that a text is stored for, and the pieces beside it: the whole
prelude, or the value behind the first colon that is kept, up to its flag. -/
inductive IsFor : Stored → List Piece → Option Piece → List Piece → Option Piece → Prop
  | whole (text : String) (pieces : List Piece) : IsFor (whole text) pieces none pieces none
  | value (text : String) {important : Bool} {property stretch flag : List Piece}
      (hproperty : ':' ∉ Prelude.textOf (Prelude.keptBetween none (some Prelude.colon) property))
      (hflag : Prelude.IsFlag important flag) :
      IsFor (value text important) (property ++ Prelude.colon :: (stretch ++ flag))
        (some Prelude.colon) stretch flag.head?

end Stored

namespace Mark

/-- The selector of a rule, the parameters of an at-rule, and the value of a declaration. -/
def storedText? : Mark → Option Stored
  | leaf (.declaration _ value important) => some (.value value important)
  | mark => mark.stored?.map .whole

variable {inBlock : Bool} {text : List Char} {s : Scan (Option Mark)} {mark : Mark}

theorem stored?_of_whole {stored : String} (h : mark.storedText? = some (.whole stored)) :
    mark.stored? = some stored := by
  unfold storedText? at h
  split at h
  · cases h
  · obtain ⟨_, hstored, heq⟩ := Option.map_eq_some_iff.mp h
    cases heq
    exact hstored

theorem eq_leaf_of_value {stored : String} {important : Bool}
    (h : mark.storedText? = some (.value stored important)) :
    ∃ property, mark = leaf (.declaration property stored important) := by
  unfold storedText? at h
  split at h
  · cases h
    exact ⟨_, rfl⟩
  · obtain ⟨_, -, heq⟩ := Option.map_eq_some_iff.mp h
    cases heq

/-- A text that is stored is what is kept of the stretch that it is stored for, trimmed. -/
theorem exists_stretch {stored : Stored} {previous next : Option Piece} {stretch : List Piece}
    (hs : scan? inBlock text = some s) (hvalue : s.value = some mark)
    (hstored : mark.storedText? = some stored)
    (hfor : stored.IsFor (prelude inBlock text).value previous stretch next) :
    ∃ rest more, (Prelude.scan inBlock rest).value = stretch ++ more ∧
      (∀ piece ∈ more.head?, piece = Prelude.bang) ∧ next = more.head? ∧
      stored.text.toList =
        Text.trim (Prelude.textOf (Prelude.keptBetween previous next stretch)) := by
  obtain ⟨rest, hrest⟩ := exists_prelude inBlock text
  generalize hpieces : (prelude inBlock text).value = pieces at hfor
  have hscan : (Prelude.scan inBlock rest).value = pieces := by rw [← hrest, hpieces]
  cases hfor with
  | whole stored =>
    refine ⟨rest, [], by rw [hscan, List.append_nil], by simp, rfl, ?_⟩
    rw [Stored.text, toList_stored hs hvalue (stored?_of_whole hstored), Prelude.kept,
      Prelude.keptFrom_eq, hpieces]
  | value stored hproperty hflag =>
    rename_i important property flag
    obtain ⟨name, rfl⟩ := eq_leaf_of_value hstored
    have hread := readDeclaration_of_scan? hs hvalue
    have hcolon : ∀ other, Prelude.keptFrom other (Prelude.colon :: (stretch ++ flag)) =
        ':' :: Prelude.keptFrom (some Prelude.colon) (stretch ++ flag) := fun _ => rfl
    rw [hpieces, Prelude.kept, Prelude.keptFrom_append, List.head?_cons, hcolon,
      readDeclaration_append hproperty] at hread
    split at hread
    · cases hread
    have hdeclaration := Except.ok.inj hread
    simp only [NodeKind.declaration.injEq] at hdeclaration
    obtain ⟨-, htext, himportant⟩ := hdeclaration
    have hbehind : property ++ Prelude.colon :: (stretch ++ flag) =
        (property ++ [Prelude.colon]) ++ (stretch ++ flag) := by simp
    obtain ⟨rest', hrest'⟩ := Prelude.exists_scan_of_append (hscan.trans hbehind)
    refine ⟨rest', flag, hrest', hflag.eq_bang, rfl, ?_⟩
    rw [Stored.text, ← htext, String.toList_ofList, hflag.splitImportant_eq _ himportant]

end Mark

namespace Reading

/-- In each text that is stored for a node of a stylesheet a comment is loose exactly when one is
in the stretch that the text is stored for, with whitespace in the place of the comments that
are left out, if the stretch is clean. -/
theorem hasLoose_stored (css : String) :
    List.Forall₂
      (fun stored head => ∀ previous stretch next,
        stored.IsFor head.value previous stretch next →
        Prelude.IsCleanBetween previous next stretch →
        (HasLoose (Token.outline stored.text.toList) ↔
          HasLoose (Prelude.loosened previous next stretch)))
      ((Tree.marksOfAll (ofText css).trees).filterMap Mark.storedText?)
      (Mark.preludesOf Mark.storedText? 0 css.toList) := by
  rw [(orderly_ofText css).2]
  refine Mark.forall₂_met rfl (fun {inBlock text _ mark stored} hs hvalue hstored => ?_) 0 _
  intro previous stretch next hfor hclean
  obtain ⟨rest, more, hscan, hmore, rfl, htext⟩ := Mark.exists_stretch hs hvalue hstored hfor
  rw [htext, Prelude.hasLoose_outline_trim hscan hmore hclean]

/-- A comment between two names stays wedged in the selector, and one before a flag comes to
stand at the end of the value. -/
theorem hasLoose_stored_ofFlag :
    let css := "a/**/b /**/\x7bp: q/**/!IMPORTANT\x7d"
    let stretch := [⟨.space, [' ']⟩, ⟨.solid, ['q']⟩, ⟨.comment, ['/', '*', '*', '/']⟩]
    let next := some Prelude.bang
    ∃ head head', Mark.preludesOf Mark.storedText? 0 css.toList = [head, head'] ∧
      (Stored.whole "a/**/b").IsFor head.value none head.value none ∧
      Prelude.IsCleanBetween none none head.value ∧
      (HasLoose (Token.outline "a/**/b".toList) ↔
        HasLoose (Prelude.loosened none none head.value)) ∧
      (Stored.value "q/**/" true).IsFor head'.value (some Prelude.colon) stretch next ∧
      Prelude.IsCleanBetween (some Prelude.colon) next stretch ∧
      (HasLoose (Token.outline "q/**/".toList) ↔
        HasLoose (Prelude.loosened (some Prelude.colon) next stretch)) := by
  intro css stretch next
  have hstored : (Tree.marksOfAll (ofText css).trees).filterMap Mark.storedText? =
      [.whole "a/**/b", .value "q/**/" true] := by decide +kernel
  have hvalues : (Mark.preludesOf Mark.storedText? 0 css.toList).map Scan.value =
      [[⟨.solid, ['a']⟩, ⟨.comment, ['/', '*', '*', '/']⟩, ⟨.solid, ['b']⟩, ⟨.space, [' ']⟩,
          ⟨.comment, ['/', '*', '*', '/']⟩],
        [⟨.solid, ['p']⟩] ++ Prelude.colon :: (stretch ++
          [Prelude.bang, ⟨.solid, "IMPORTANT".toList⟩])] := by decide +kernel
  have h := hasLoose_stored css
  rw [hstored] at h
  generalize Mark.preludesOf Mark.storedText? 0 css.toList = heads at h hvalues
  rcases h with _ | ⟨hfirst, _ | ⟨hsecond, _ | _⟩⟩
  rename_i head head'
  simp only [List.map_cons, List.map_nil, List.cons.injEq, and_true] at hvalues
  obtain ⟨hvalue, hvalue'⟩ := hvalues
  have hclean : Prelude.IsCleanBetween none none head.value := by
    rw [hvalue]
    decide +kernel
  have hfor' : (Stored.value "q/**/" true).IsFor head'.value (some Prelude.colon) stretch next := by
    rw [hvalue']
    exact .value _ (by decide +kernel) (.present (by decide +kernel) (List.all_eq_true.mp rfl))
  have hclean' : Prelude.IsCleanBetween (some Prelude.colon) next stretch := by decide +kernel
  exact ⟨head, head', rfl, .whole _ _, hclean, hfirst _ _ _ (.whole _ _) hclean, hfor', hclean',
    hsecond _ _ _ hfor' hclean'⟩

/-- A comment directly behind the colon is not next to whitespace in the statement, but it is the
first thing of the value. -/
theorem hasLoose_stored_ne :
    let css := "a:/**/b"
    (Tree.marksOfAll (ofText css).trees).filterMap Mark.storedText? = [.value "/**/b" false] ∧
      HasLoose (Token.outline "/**/b".toList) := by
  decide +kernel

end Reading

end Typography
