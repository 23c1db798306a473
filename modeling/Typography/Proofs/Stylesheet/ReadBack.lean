import Typography.Proofs.Stylesheet.OpenEnd
import Typography.Proofs.Stylesheet.Settled

/-!
# Layouts that are read back

A layout is read back exactly if all of its marks are settled, `Tree.bareAll_eq_iff_allSettled`.
One direction reads the marks one after the other. For the other one suppose that the
marks come back. Their texts have all the ink of the layout, and none of them has more
than what it is read from; so no item can have ink that does not show in its mark, and
each mark is read from its own text up to blanks, `Mark.readBefore_of_met`.
-/

namespace Typography

open Text

namespace Mark

/-- The item of the first mark, behind items that make no mark. -/
theorem exists_first {depth : Nat} {text : List Char} {mark : Mark} {marks : List Mark}
    (h : met depth text = mark :: marks) (hmark : mark ≠ closing) :
    ∃ before s, text = before ++ (s.lexeme ++ s.rest) ∧
      scan? (0 < depth) (s.lexeme ++ s.rest) = some s ∧ s.value = some mark ∧
      met (mark.depthBehind depth) s.rest = marks ∧
      (EndsOpen depth (s.lexeme ++ s.rest) → EndsOpen depth text) := by
  fun_induction met depth text with
  | case1 depth text hnone =>
    cases depth with
    | zero => simp at h
    | succ depth => exact absurd (List.cons.inj h).1.symm hmark
  | case2 depth text s hs ih =>
    cases hvalue : s.value with
    | none =>
      rw [hvalue] at h ih
      obtain ⟨before, s', hrest, hscan, hvalue', hmet, hopen⟩ := ih h
      refine ⟨s.lexeme ++ before, s', ?_, hscan, hvalue', hmet, fun h' => ?_⟩
      · rw [List.append_assoc, ← hrest, splits_of_scan?_eq_some hs]
      · refine .of_scan? hs ?_
        rw [hvalue]
        exact hopen h'
    | some mark' =>
      rw [hvalue] at h
      obtain ⟨rfl, hmet⟩ := List.cons.inj h
      have hsplits : s.lexeme ++ s.rest = text := splits_of_scan?_eq_some hs
      exact ⟨[], s, hsplits.symm, hsplits.symm ▸ hs, hvalue, hmet, fun h' => hsplits ▸ h'⟩

/-- Fronts of a text with the same strokes differ by blanks. -/
theorem exists_blanks {u v x y : List Char} (h : u ++ x = v ++ y)
    (hstrokes : strokes u = strokes v) :
    ∃ blanks, (∀ c ∈ blanks, isBlank c) ∧
      (u = v ++ blanks ∧ y = blanks ++ x ∨ v = u ++ blanks ∧ x = blanks ++ y) := by
  rcases List.append_eq_append_iff.mp h with ⟨b, rfl, rfl⟩ | ⟨b, rfl, rfl⟩
  · refine ⟨b, strokes_eq_nil_iff.mp ?_, .inr ⟨rfl, rfl⟩⟩
    simpa using hstrokes
  · refine ⟨b, strokes_eq_nil_iff.mp ?_, .inl ⟨rfl, rfl⟩⟩
    simpa using hstrokes

/-- Fronts with the same strokes are one front if no blank stands behind them. -/
theorem fronts_eq_of_head? {u v x y : List Char} (h : u ++ x = v ++ y)
    (hstrokes : strokes u = strokes v) (hx : ∀ c ∈ x.head?, isBlank c = false)
    (hy : ∀ c ∈ y.head?, isBlank c = false) : u = v ∧ x = y := by
  obtain ⟨blanks, hblanks, hfronts⟩ := exists_blanks h hstrokes
  cases blanks with
  | nil => rcases hfronts with ⟨rfl, rfl⟩ | ⟨rfl, rfl⟩ <;> simp
  | cons c blanks =>
    have hc := hblanks c List.mem_cons_self
    rcases hfronts with ⟨-, rfl⟩ | ⟨-, rfl⟩
    · rw [hy c rfl] at hc
      cases hc
    · rw [hx c rfl] at hc
      cases hc

/-- Fronts with the same strokes are one front if they do not end with a blank. -/
theorem fronts_eq_of_getLast? {u v x y : List Char} (h : u ++ x = v ++ y)
    (hstrokes : strokes u = strokes v) (hu : ∀ c ∈ u.getLast?, isBlank c = false)
    (hv : ∀ c ∈ v.getLast?, isBlank c = false) : u = v ∧ x = y := by
  obtain ⟨blanks, hblanks, hfronts⟩ := exists_blanks h hstrokes
  rcases List.eq_nil_or_concat' blanks with rfl | ⟨blanks, b, rfl⟩
  · rcases hfronts with ⟨rfl, rfl⟩ | ⟨rfl, rfl⟩ <;> simp
  · have hb := hblanks b (by simp)
    rcases hfronts with ⟨rfl, -⟩ | ⟨rfl, -⟩
    · rw [hu b (by simp)] at hb
      cases hb
    · rw [hv b (by simp)] at hb
      cases hb

/-- The property of a declaration that is read starts with a character that is no blank. -/
theorem exists_property_of_readDeclaration {text : List Char} {kind : NodeKind}
    (h : readDeclaration text = .ok kind) :
    ∃ c cs value important, kind = .declaration (String.ofList (c :: cs)) value important ∧
      isBlank c = false := by
  obtain ⟨property, value, -, hne, -, rfl⟩ := exists_of_readDeclaration h
  have hhead := (isTrimmed_trim property).1
  obtain ⟨c, cs, hproperty⟩ := List.exists_cons_of_ne_nil hne
  rw [hproperty] at hhead ⊢
  exact ⟨c, cs, _, _, rfl, hhead c rfl⟩

/-- The text of a mark that is read starts with a character that is no blank, and has ink. -/
theorem exists_text_of_scan? {inBlock : Bool} {text : List Char} {s : Scan (Option Mark)}
    {mark : Mark} (h : scan? inBlock text = some s) (hvalue : s.value = some mark)
    (hmark : mark ≠ closing) :
    (∃ c cs, mark.text = c :: cs ∧ isBlank c = false) ∧ ∃ c ∈ mark.text, isInk c := by
  have hatRule : ∀ name params, ∃ cs, atRuleHead name params = '@' :: cs := fun _ _ => ⟨_, rfl⟩
  obtain ⟨t, ht, hcases⟩ := scan?_cases h
  rcases hcases with ⟨-, rfl⟩ | ⟨body, hv, rfl⟩ | ⟨hv, -, rfl⟩ | ⟨name, hv, rfl⟩ | ⟨-, rfl⟩
  · simp at hvalue
  · obtain rfl := Option.some.inj hvalue
    exact ⟨⟨'/', _, rfl, rfl⟩, '/', List.mem_cons_self, rfl⟩
  · exact absurd (Option.some.inj hvalue).symm hmark
  · unfold scanAtRule at hvalue
    rcases behindPrelude_cases hvalue with ⟨rfl, -⟩ | ⟨kind, hkind, rfl, -⟩
    · exact ⟨⟨'@', _, rfl, rfl⟩, '@', List.mem_cons_self, rfl⟩
    · obtain rfl := Option.some.inj hkind
      exact ⟨⟨'@', _, rfl, rfl⟩, '@', List.mem_cons_self, rfl⟩
  · unfold scanStatement at hvalue
    rcases behindPrelude_cases hvalue with ⟨rfl, -⟩ | ⟨kind, hkind, rfl, -⟩
    · refine ⟨?_, '\x7b', by simp [Mark.text], rfl⟩
      have hhead := (isTrimmed_trim (Prelude.kept (Prelude.scan inBlock text).value)).1
      cases hselector : trim (Prelude.kept (Prelude.scan inBlock text).value) with
      | nil => exact ⟨'\x7b', [], rfl, rfl⟩
      | cons c cs =>
        rw [hselector] at hhead
        exact ⟨c, _, by simp [Mark.text]; rfl, hhead c rfl⟩
    · obtain ⟨c, cs, value, important, rfl, hc⟩ :=
        exists_property_of_readDeclaration (ok_of_toOption hkind)
      exact ⟨⟨c, _, by simp [Mark.text]; rfl, hc⟩, ':', by simp [Mark.text], rfl⟩

theorem rest_behindPrelude_of_leaf {inBlock : Bool} {before text : List Char}
    {withBlock kind : NodeKind} {outcome : Option NodeKind}
    (hvalue : (behindPrelude before (Prelude.scan inBlock text) withBlock outcome).value =
      some (leaf kind)) :
    ∀ c ∈ (behindPrelude before (Prelude.scan inBlock text) withBlock outcome).rest.head?,
      isBlank c = false := by
  rcases behindPrelude_cases hvalue with ⟨hopening, -⟩ | ⟨_, -, -, -, hrest⟩
  · cases hopening
  intro c hc
  rw [hrest] at hc
  obtain ⟨rest, hrest⟩ := List.head?_eq_some_iff.mp hc
  have hends := Prelude.endsBefore_rest_scan inBlock text
  rw [hrest] at hends
  simp only [Prelude.endsBefore, Bool.or_eq_true, beq_iff_eq, Bool.and_eq_true] at hends
  rcases hends with (rfl | rfl) | ⟨-, rfl⟩ <;> rfl

/-- What stands behind a mark that ends with a semicolon. -/
theorem rest_of_needsSemicolon {inBlock : Bool} {text : List Char} {s : Scan (Option Mark)}
    {mark : Mark} (h : scan? inBlock text = some s) (hvalue : s.value = some mark)
    (hsemicolon : mark.needsSemicolon) : ∀ c ∈ s.rest.head?, isBlank c = false := by
  obtain ⟨kind, rfl⟩ : ∃ kind, mark = leaf kind := by
    cases mark <;> simp_all [needsSemicolon]
  obtain ⟨t, ht, hcases⟩ := scan?_cases h
  rcases hcases with ⟨-, rfl⟩ | ⟨body, hv, rfl⟩ | ⟨hv, -, rfl⟩ | ⟨name, hv, rfl⟩ | ⟨-, rfl⟩
  · simp at hvalue
  · obtain rfl := leaf.inj (Option.some.inj hvalue)
    cases hsemicolon
  · simp at hvalue
  · exact rest_behindPrelude_of_leaf hvalue
  · exact rest_behindPrelude_of_leaf hvalue

/-- A mark that needs no semicolon ends with a character that is no blank, and so does what
it is read from. -/
theorem exists_last_of_scan? {inBlock : Bool} {text : List Char}
    {s : Scan (Option Mark)} {mark : Mark} (h : scan? inBlock text = some s)
    (hvalue : s.value = some mark) (hsemicolon : mark.needsSemicolon = false)
    (hstrokes : strokes mark.text = strokes s.lexeme) :
    (∃ cs c, mark.text = cs ++ [c] ∧ isBlank c = false) ∧
      ∃ cs c, s.lexeme = cs ++ [c] ∧ isBlank c = false := by
  obtain ⟨t, ht, hcases⟩ := scan?_cases h
  rcases hcases with ⟨-, rfl⟩ | ⟨body, hv, rfl⟩ | ⟨hv, -, rfl⟩ | ⟨name, hv, rfl⟩ | ⟨-, rfl⟩
  · simp at hvalue
  · obtain rfl := Option.some.inj hvalue
    obtain ⟨cs, rfl, rfl⟩ := Token.exists_of_comment ht hv
    obtain rfl : (Token.scanComment cs).value = body := by simpa using hv
    rcases Token.scanComment_cases cs with hclosed | ⟨hopen, -⟩
    · refine ⟨⟨'/' :: '*' :: (Token.scanComment cs).value ++ ['*'], '/', ?_, rfl⟩,
        '/' :: '*' :: (Token.scanComment cs).value ++ ['*'], '/', ?_, rfl⟩
      · simp [Mark.text]
      · simp [hclosed]
    · have htext : (leaf (.comment (String.ofList (Token.scanComment cs).value))).text =
          ('/' :: '*' :: (Token.scanComment cs).lexeme) ++ ['*', '/'] := by
        simp [Mark.text, hopen]
      have hend : strokes ['*', '/'] = [true, true] := rfl
      rw [htext, strokes_append, hend] at hstrokes
      simpa using congrArg List.length hstrokes
  · obtain rfl := Option.some.inj hvalue
    rw [Scan.lexeme_map, Token.lexeme_of_isHard (.inr (.inr rfl)) ht hv]
    exact ⟨⟨[], '\x7d', rfl, rfl⟩, [], '\x7d', rfl, rfl⟩
  · unfold scanAtRule at hvalue ⊢
    rcases behindPrelude_cases hvalue with ⟨rfl, hlexeme, -⟩ | ⟨kind, hkind, rfl, -⟩
    · obtain ⟨u, hu⟩ := exists_text_opening (.atRule (String.ofList name)
        (String.ofList (trim (Prelude.kept (Prelude.scan inBlock t.rest).value))) true)
      exact ⟨⟨u, '\x7b', hu, rfl⟩, _, '\x7b', hlexeme, rfl⟩
    · obtain rfl := Option.some.inj hkind
      simp [needsSemicolon, NodeKind.needsSemicolon] at hsemicolon
  · unfold scanStatement at hvalue ⊢
    rcases behindPrelude_cases hvalue with ⟨rfl, hlexeme, -⟩ | ⟨kind, hkind, rfl, -⟩
    · obtain ⟨u, hu⟩ := exists_text_opening (.rule
        (String.ofList (trim (Prelude.kept (Prelude.scan inBlock text).value))))
      exact ⟨⟨u, '\x7b', hu, rfl⟩, _, '\x7b', hlexeme, rfl⟩
    · obtain ⟨property, value, important, rfl⟩ :=
        Reader.ok_of_readDeclaration (ok_of_toOption hkind)
      simp [needsSemicolon, NodeKind.needsSemicolon] at hsemicolon

/-- What is read in front of the end of a mark with as much ink is the mark's own text. -/
theorem readBefore_of_strokes_eq {depth : Nat} {mark : Mark} {isLast : Bool}
    {s : Scan (Option Mark)} {tail : List Char}
    (h : scan? (0 < depth) (s.lexeme ++ s.rest) = some s) (hvalue : s.value = some mark)
    (hstrokes : strokes mark.text = strokes s.lexeme) :
    let place : Segment := ⟨depth, mark, isLast⟩
    s.lexeme ++ s.rest = mark.text ++ place.gap ++ place.stop ++ tail →
      place.ReadBefore tail ∧ s.rest = place.stop ++ tail := by
  intro place heq
  have hplace : s.lexeme = mark.text ++ place.gap ∧ s.rest = place.stop ++ tail := by
    cases hsemicolon : mark.needsSemicolon with
    | true =>
      have hrest := rest_of_needsSemicolon h hvalue hsemicolon
      have hgap : strokes place.gap = [] :=
        strokes_eq_nil_iff.mpr fun c hc => isBlank_of_isSpace (place.isSpace_of_mem_gap c hc)
      have hstop : ∀ c ∈ (place.stop ++ tail).head?, isBlank c = false := by
        cases hlast : isLast <;> simp [place, Segment.stop, hsemicolon, hlast] <;> rfl
      exact fronts_eq_of_head? (heq.trans (List.append_assoc ..))
        (by rw [strokes_append, hgap, List.append_nil, hstrokes]) hrest hstop
    | false =>
      obtain ⟨⟨cs, c, htext, hc⟩, cs', c', hlexeme, hc'⟩ :=
        exists_last_of_scan? h hvalue hsemicolon hstrokes
      have hgap : place.gap = [] := by simp [place, Segment.gap, hsemicolon]
      have hstop : place.stop = [] := by simp [place, Segment.stop, hsemicolon]
      rw [hgap, hstop, List.append_nil, List.append_nil] at heq
      rw [hgap, hstop, List.append_nil, List.nil_append]
      exact fronts_eq_of_getLast? heq hstrokes.symm (by simp [hlexeme, hc']) (by simp [htext, hc])
  refine ⟨?_, hplace.2⟩
  unfold Segment.ReadBefore
  rw [← heq, h, ← hplace.1, ← hplace.2, ← hvalue]

/-- A front without ink is blank, if the first ink comes as early with it as without. -/
theorem strokes_eq_nil_of_append {front text : List Char} {more more' : List Bool}
    (hfront : ink front = 0) (htext : ∃ c ∈ text, isInk c)
    (h : strokes text ++ more = strokes front ++ (strokes text ++ more')) : strokes front = [] := by
  have hnot : true ∉ strokes front := List.count_eq_zero.mp hfront
  have hmem : true ∈ strokes text := by
    obtain ⟨c, hc, hink⟩ := htext
    refine List.mem_map.mpr ⟨c, List.mem_filter.mpr ⟨hc, ?_⟩, hink⟩
    simp only [isInk, Bool.not_eq_true', Bool.or_eq_false_iff] at hink
    simp [hink.1.1]
  have hidx := congrArg (List.idxOf true) h
  rw [List.idxOf_append_of_mem hmem, List.idxOf_append_of_notMem hnot,
    List.idxOf_append_of_mem hmem] at hidx
  exact List.eq_nil_of_length_eq_zero (by omega)

/-- In a layout whose marks come back, the first one is read from its own text. -/
theorem readBefore_of_met {depth : Nat} {mark : Mark} {marks : List Mark} {tail : List Char}
    (hclosing : mark = closing → 0 < depth)
    (hmet : met depth (written depth (mark :: marks)) = mark :: marks) :
    let place : Segment := ⟨depth, mark, marks.head? == some closing⟩
    written depth (mark :: marks) = mark.text ++ place.gap ++ place.stop ++ tail →
      place.ReadBefore tail := by
  intro place hwritten
  by_cases hmark : mark = closing
  · subst hmark
    exact (Segment.settled_closing (hclosing rfl)).readBefore tail
  obtain ⟨front, s, htext, hscan, hvalue, hrest, hopen⟩ := exists_first hmet hmark
  have hopen' : ¬EndsOpen depth (s.lexeme ++ s.rest) :=
    fun h => not_endsOpen_written hmet (hopen h)
  have hpaler : Paler mark.text s.lexeme := by
    rcases paler_text hscan hvalue with hpaler | ⟨body, rfl, hnil, hcomment, hbody⟩
    · exact hpaler
    · exact absurd (.of_comment hscan hvalue hnil hcomment hbody) hopen'
  have hle : inkOfAll marks ≤ ink s.rest := by
    rcases endsOpen_or_ink_le (mark.depthBehind depth) s.rest with h | h
    · refine absurd (EndsOpen.of_scan? hscan ?_) hopen'
      rw [hvalue]
      exact h
    · rwa [hrest] at h
  have hink : ink mark.text + inkOfAll marks = ink front + (ink s.lexeme + ink s.rest) := by
    rw [← inkOfAll_cons, ← ink_written depth, htext, ink_append, ink_append]
  have hpale := hpaler.ink_le
  have hstrokes : strokes mark.text = strokes s.lexeme := hpaler.strokes_eq (by omega)
  obtain ⟨⟨c, cs, hfirst, hc⟩, hsome⟩ := exists_text_of_scan? hscan hvalue hmark
  have hfront : front = [] := by
    have hsplit : strokes mark.text ++ strokes (place.gap ++ (place.stop ++ tail)) =
        strokes front ++ (strokes mark.text ++ strokes s.rest) := by
      rw [← strokes_append, ← List.append_assoc, ← List.append_assoc, ← hwritten, htext, hstrokes,
        strokes_append, strokes_append]
    have hblank := strokes_eq_nil_iff.mp (strokes_eq_nil_of_append (by omega) hsome hsplit)
    cases front with
    | nil => rfl
    | cons c' front =>
      have hhead : c' = c := by
        have := htext.symm.trans hwritten
        rw [hfirst] at this
        exact (List.cons.inj this).1
      rw [← hhead, hblank c' List.mem_cons_self] at hc
      cases hc
  rw [hfront, List.nil_append] at htext
  exact (readBefore_of_strokes_eq hscan hvalue hstrokes (htext.symm.trans hwritten)).1

/-- Marks that come back from their layout are all settled. -/
theorem settled_of_met {depth : Nat} {marks : List Mark} (hclosed : Closed depth marks)
    (hmet : met depth (written depth marks) = marks) : ∀ s ∈ segments depth marks, s.Settled := by
  induction marks generalizing depth with
  | nil => simp [segments]
  | cons mark marks ih =>
    obtain ⟨tail, hwritten, htail⟩ := exists_tail depth mark marks
    have hread := readBefore_of_met hclosed.1 hmet hwritten
    have hrest : met (mark.depthBehind depth) (written (mark.depthBehind depth) marks) = marks := by
      rw [hwritten, met_of_scan? hread] at hmet
      rw [← htail]
      exact (List.cons.inj hmet).2
    intro s hs
    rcases List.mem_cons.mp hs with rfl | hs
    · exact Segment.settled_iff.mpr (hread.congr [])
    · exact ih hclosed.2 hrest s hs

end Mark

namespace Tree

/-- Trees come back from their layout exactly if all of their marks are settled there. -/
theorem bareAll_eq_iff_allSettled {trees : List Tree} (h : AllOrderly trees) :
    bareAll (Reading.ofText (Layout.stylesheet trees)).trees = bareAll trees ↔
      AllSettled trees := by
  refine ⟨fun hbare => ?_, fun hsettled => hsettled.bareAll_eq h⟩
  obtain ⟨-, hmarks⟩ := Reading.orderly_ofText (Layout.stylesheet trees)
  apply Mark.settled_of_met (closed_marksOfAll trees)
  rw [Layout.toList_stylesheet h] at hmarks
  rw [← hmarks, ← marksOfAll_bareAll, hbare, marksOfAll_bareAll]

end Tree

end Typography
