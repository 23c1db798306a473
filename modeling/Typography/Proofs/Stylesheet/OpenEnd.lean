import Typography.Proofs.Stylesheet.Ink

/-!
# Comments at the end of a text

The marks that are met in a text have no more ink than the text, except for a comment
that is not closed: its own text has a closing that it was not read from. A layout closes
its comments, so if it is read back and yet ends in an open comment, this is the text of
its last comment again, two characters later. `Mark.not_endsOpen_written` says that it
is not, since the item before it would have to end in an asterisk.
-/

namespace Typography

open Text

namespace Mark

/-- The ink of the texts of marks. -/
def inkOfAll (marks : List Mark) : Nat :=
  ink (marks.flatMap Mark.text)

@[simp] theorem inkOfAll_nil : inkOfAll [] = 0 := rfl

@[simp] theorem inkOfAll_cons (mark : Mark) (marks : List Mark) :
    inkOfAll (mark :: marks) = ink mark.text + inkOfAll marks := by
  simp [inkOfAll]

theorem inkOfAll_closings (n : Nat) : inkOfAll (List.replicate n closing) = 0 := by
  induction n with
  | zero => rfl
  | succ n ih => rw [List.replicate_succ, inkOfAll_cons, ih]; rfl

theorem ink_newLine (depth : Nat) : ink (newLine depth) = 0 := by
  rw [ink_eq_zero_iff]
  intro c hc
  rcases List.mem_cons.mp hc with rfl | hc
  · rfl
  · rw [List.eq_of_mem_replicate hc]
    rfl

theorem ink_between (semicolon opened : Bool) (depth : Nat) (next : Option Mark) :
    ink (between semicolon opened depth next) = 0 := by
  have hsemicolon : ink (if semicolon then [';'] else []) = 0 := by cases semicolon <;> rfl
  unfold between
  split
  · exact hsemicolon
  · split
    · rfl
    · exact ink_newLine _
  · rw [ink_append, hsemicolon, ink_newLine]

/-- The ink of a layout is that of its marks. -/
theorem ink_written (depth : Nat) (marks : List Mark) :
    ink (written depth marks) = inkOfAll marks := by
  induction marks generalizing depth with
  | nil => rfl
  | cons mark marks ih =>
    rw [written_cons, ink_append, ink_append, ink_between, ih, inkOfAll_cons, Nat.add_zero]

/-- The reading of a text ends in a comment that is not closed, behind an item that does
not end in an asterisk. -/
def EndsOpen (depth : Nat) (text : List Char) : Prop :=
  ∃ front body marks n, text = front ++ '/' :: '*' :: body.toList ∧ ¬['*', '/'] <:+: body.toList ∧
    met depth text = marks ++ leaf (.comment body) :: List.replicate n closing ∧
      ∀ c ∈ front.getLast?, c ≠ '*'

/-- A mark with a prelude ends in a curly bracket or is followed by what ends it. -/
theorem getLast?_behindPrelude (inBlock : Bool) (before text : List Char) (withBlock : NodeKind)
    (outcome : Option NodeKind) :
    let s := behindPrelude before (Prelude.scan inBlock text) withBlock outcome
    s.lexeme.getLast? = some '\x7b' ∨ Prelude.endsBefore inBlock s.rest := by
  dsimp only
  have hends := Prelude.endsBefore_rest_scan inBlock text
  unfold behindPrelude
  split
  · exact .inl (by simp)
  · exact .inr hends

/-- An item in front of a slash does not end in an asterisk. -/
theorem getLast?_lexeme_ne {inBlock : Bool} {text rest : List Char} {s : Scan (Option Mark)}
    (h : scan? inBlock text = some s) (hrest : s.rest = '/' :: rest) :
    ∀ c ∈ s.lexeme.getLast?, c ≠ '*' := by
  have hslash : Prelude.endsBefore inBlock ('/' :: rest) = false := by
    cases inBlock <;> rfl
  obtain ⟨t, ht, hcases⟩ := scan?_cases h
  rcases hcases with ⟨hv | hv, rfl⟩ | ⟨body, hv, rfl⟩ | ⟨hv, -, rfl⟩ | ⟨name, hv, rfl⟩ | ⟨-, rfl⟩
  · rintro c hc rfl
    cases Token.isSpace_of_space ht hv '*' (List.mem_of_getLast? hc)
  · rw [Scan.lexeme_map, Token.lexeme_of_isHard (.inl rfl) ht hv]
    simp
  · obtain ⟨cs, rfl, rfl⟩ := Token.exists_of_comment ht hv
    rcases Token.scanComment_cases cs with hclosed | ⟨hopen, -⟩
    · rw [Scan.lexeme_map, Scan.lexeme_behind, hclosed, ← List.append_assoc,
        List.getLast?_append_of_ne_nil _ (by simp)]
      simp
    · simp [hopen] at hrest
  · rw [Scan.lexeme_map, Token.lexeme_of_isHard (.inr (.inr rfl)) ht hv]
    simp
  · rcases getLast?_behindPrelude inBlock t.lexeme t.rest _ _ with hlast | hends
    · rw [scanAtRule, hlast]
      simp
    · rw [scanAtRule] at hrest
      rw [hrest, hslash] at hends
      cases hends
  · rcases getLast?_behindPrelude inBlock [] text _ _ with hlast | hends
    · rw [scanStatement, hlast]
      simp
    · rw [scanStatement] at hrest
      rw [hrest, hslash] at hends
      cases hends

/-- What is met behind an item in front of an end in an open comment. -/
theorem EndsOpen.of_scan? {depth : Nat} {text : List Char} {s : Scan (Option Mark)}
    (h : scan? (0 < depth) text = some s) (hopen : EndsOpen (depthAfter depth s.value) s.rest) :
    EndsOpen depth text := by
  obtain ⟨front, body, marks, n, hrest, hbody, hmet, hlast⟩ := hopen
  refine ⟨s.lexeme ++ front, body, s.value.toList ++ marks, n, ?_, hbody, ?_, ?_⟩
  · rw [List.append_assoc, ← hrest, splits_of_scan?_eq_some h]
  · rw [met_of_scan? h, hmet, List.append_assoc]
  · cases front with
    | nil =>
      rw [List.append_nil]
      exact getLast?_lexeme_ne h hrest
    | cons c front =>
      rw [List.getLast?_append_of_ne_nil _ (List.cons_ne_nil c front)]
      exact hlast

/-- A comment that is not closed is the end of a text. -/
theorem EndsOpen.of_comment {depth : Nat} {text : List Char} {s : Scan (Option Mark)}
    {body : String} (h : scan? (0 < depth) text = some s)
    (hvalue : s.value = some (leaf (.comment body))) (hrest : s.rest = [])
    (htext : text = '/' :: '*' :: body.toList) (hbody : ¬['*', '/'] <:+: body.toList) :
    EndsOpen depth text := by
  refine ⟨[], body, [], depth, htext, hbody, ?_, by simp⟩
  rw [met_of_scan? h, hvalue, hrest]
  exact congrArg _ (met_nil depth)

/-- The marks that are met in a text have no more ink than the text, unless it ends in an
open comment. -/
theorem endsOpen_or_ink_le (depth : Nat) (text : List Char) :
    EndsOpen depth text ∨ inkOfAll (met depth text) ≤ ink text := by
  fun_induction met depth text with
  | case1 depth text h =>
    rw [inkOfAll_closings]
    exact .inr (Nat.zero_le _)
  | case2 depth text s h ih =>
    rcases ih with hopen | hle
    · exact .inl (.of_scan? h hopen)
    · have hink : ink text = ink s.lexeme + ink s.rest := by
        rw [← ink_append, splits_of_scan?_eq_some h]
      cases hvalue : s.value with
      | none =>
        rw [hvalue] at hle
        rw [Option.toList_none, List.nil_append]
        exact .inr (hle.trans (hink ▸ Nat.le_add_left _ _))
      | some mark =>
        rcases paler_text h hvalue with hpaler | ⟨body, rfl, hrest, htext, hbody⟩
        · rw [hvalue] at hle
          have := hpaler.ink_le
          right
          rw [Option.toList_some, List.singleton_append, inkOfAll_cons]
          omega
        · exact .inl (.of_comment h hvalue hrest htext hbody)

theorem not_mem_between_closing (depth : Nat) (next : Option Mark) :
    ∀ c ∈ between false false depth next, c ≠ '*' ∧ c ≠ '/' := by
  have hline : ∀ depth, ∀ c ∈ newLine depth, c ≠ '*' ∧ c ≠ '/' := by
    intro depth c hc
    rcases List.mem_cons.mp hc with rfl | hc
    · simp
    · rw [List.eq_of_mem_replicate hc]
      simp
  unfold between
  split
  · simp
  · exact hline _
  · exact hline _

theorem not_mem_written_closings (depth n : Nat) :
    ∀ c ∈ written depth (List.replicate n closing), c ≠ '*' ∧ c ≠ '/' := by
  induction n generalizing depth with
  | zero => simp [written]
  | succ n ih =>
    intro c hc
    rw [List.replicate_succ, written_cons, List.append_assoc, List.mem_append,
      List.mem_append] at hc
    rcases hc with hc | hc | hc
    · rw [List.mem_singleton.mp hc]
      simp
    · exact not_mem_between_closing _ _ c hc
    · exact ih _ c hc

/-- A layout whose last node is a comment closes it, and then blocks only. -/
theorem exists_written_comment (depth : Nat) (marks : List Mark) (body : String) (n : Nat) :
    ∃ before behind, written depth (marks ++ leaf (.comment body) :: List.replicate n closing) =
      before ++ '/' :: '*' :: (body.toList ++ '*' :: '/' :: behind) ∧
        ∀ c ∈ behind, c ≠ '*' ∧ c ≠ '/' := by
  induction marks generalizing depth with
  | nil =>
    refine ⟨[], between false false depth (List.replicate n closing).head? ++
      written depth (List.replicate n closing), ?_, fun c hc => ?_⟩
    · rw [List.nil_append, written_cons, List.append_assoc]
      simp [text, needsSemicolon, NodeKind.needsSemicolon, isOpening, depthBehind]
    · rcases List.mem_append.mp hc with hc | hc
      · exact not_mem_between_closing _ _ c hc
      · exact not_mem_written_closings _ _ c hc
  | cons mark marks ih =>
    obtain ⟨before, behind, hwritten, hbehind⟩ := ih (mark.depthBehind depth)
    exact ⟨_, behind, by rw [List.cons_append, written_cons, hwritten, ← List.append_assoc],
      hbehind⟩

/-- A comment that is closed at the end of a text is not the same one open. -/
theorem not_open_of_closed {front before body behind : List Char}
    (hbody : ¬['*', '/'] <:+: body) (hbehind : ∀ c ∈ behind, c ≠ '*' ∧ c ≠ '/')
    (hlast : ∀ c ∈ front.getLast?, c ≠ '*') :
    front ++ '/' :: '*' :: body ≠ before ++ '/' :: '*' :: (body ++ '*' :: '/' :: behind) := by
  intro h
  have h' : (front ++ ['/', '*']) ++ body =
      (before ++ '/' :: '*' :: body) ++ '*' :: '/' :: behind := by
    simpa using h
  rcases List.append_eq_append_iff.mp h' with ⟨w, -, hw⟩ | ⟨w, hfront', hw⟩
  · exact hbody ⟨w, behind, by simp [hw]⟩
  · cases w with
    | nil => exact hbody ⟨[], behind, by simpa using hw⟩
    | cons c w =>
      obtain ⟨rfl, hbody'⟩ : c = '*' ∧ '/' :: behind = w ++ body := by simpa [eq_comm] using hw
      cases w with
      | nil =>
        -- The body is the slash of the closing, so the front ends in its asterisk.
        obtain rfl : '/' :: behind = body := hbody'
        have hslash : front ++ ['/'] = before ++ ['/', '*'] ++ '/' :: behind := by
          have : front ++ ['/'] ++ ['*'] = before ++ ['/', '*'] ++ '/' :: behind ++ ['*'] := by
            simpa using hfront'
          exact List.append_cancel_right this
        rcases List.eq_nil_or_concat' behind with rfl | ⟨behind, c, rfl⟩
        · have hfront : front = before ++ ['/', '*'] := List.append_cancel_right hslash
          exact hlast '*' (by simp [hfront]) rfl
        · have : front ++ ['/'] = (before ++ ['/', '*'] ++ '/' :: behind) ++ [c] := by
            simpa using hslash
          obtain rfl : '/' = c := by simpa using (List.append_inj' this rfl).2
          exact (hbehind '/' (by simp)).2 rfl
      | cons c w =>
        obtain ⟨rfl, rfl⟩ : c = '/' ∧ behind = w ++ body := by simpa [eq_comm] using hbody'
        rcases List.eq_nil_or_concat' w with rfl | ⟨w, c, rfl⟩
        · have : front ++ ['/'] ++ ['*'] = before ++ '/' :: '*' :: body ++ ['*'] ++ ['/'] := by
            simpa using hfront'
          simpa using (List.append_inj' this rfl).2
        · have : front ++ ['/'] ++ ['*'] =
              before ++ '/' :: '*' :: body ++ '*' :: '/' :: w ++ [c] := by
            simpa using hfront'
          obtain rfl : '*' = c := by simpa using (List.append_inj' this rfl).2
          exact (hbehind '*' (by simp)).1 rfl

/-- A layout that is read back does not end in an open comment. -/
theorem not_endsOpen_written {depth : Nat} {marks : List Mark}
    (hmet : met depth (written depth marks) = marks) : ¬EndsOpen depth (written depth marks) := by
  rintro ⟨front, body, marks', n, htext, hbody, hmarks, hlast⟩
  rw [hmet] at hmarks
  obtain ⟨before, behind, hwritten, hbehind⟩ := exists_written_comment depth marks' body n
  rw [hmarks, hwritten] at htext
  exact not_open_of_closed hbody hbehind hlast htext.symm

end Mark

end Typography
