import Typography.Proofs.Source.Position
import Typography.Proofs.Stylesheet.Met

/-!
# Where the reader is

A reader moves its position over each stretch of text that it takes away, one after the
other. That this is the position behind all of them together needs that no cut between two
goes through a line break: `Cursor.IsAt` says so of the cut where the cursor stands, and a
step of the reader keeps it, `Reader.exists_isAt_step`.
-/

namespace Typography

namespace Text

variable {front middle behind : List Char}

theorem not_severs_append (hfront : ¬ Severs front (middle ++ behind))
    (hmiddle : ¬ Severs middle behind) : ¬ Severs (front ++ middle) behind := by
  by_cases h : middle = []
  · subst h
    rwa [List.append_nil]
  · rwa [severs_append_left h]

theorem not_severs_of_notMem (h : '\r' ∉ front) (behind : List Char) : ¬ Severs front behind :=
  fun hsevers => h (List.mem_of_getLast? hsevers.1)

theorem not_severs_of_prefix (h : ¬ Severs front (middle ++ behind)) : ¬ Severs front middle := by
  by_cases hne : middle = []
  · subst hne
    exact not_severs_of_head? (by simp) front
  · rwa [severs_append_right hne] at h

/-- A line break is taken as a whole. -/
theorem not_severs_lineBreak (cs : List Char) : ¬ Severs (lineBreak cs) (afterLineBreak cs) := by
  fun_cases lineBreak cs with
  | case1 rest =>
    rintro ⟨hlast, -⟩
    cases hlast
  | case2 c rest hcrlf hbreak =>
    rintro ⟨hlast, hhead⟩
    obtain rfl : c = '\r' := Option.some.inj hlast
    rw [afterLineBreak, if_pos hbreak] at hhead
    · obtain ⟨more, rfl⟩ := List.head?_eq_some_iff.mp hhead
      exact hcrlf more rfl rfl
    · exact hcrlf
  | case3 => exact not_severs_nil _
  | case4 => exact not_severs_nil _

end Text

namespace Escape

theorem not_severs_gap (cs : List Char) : ¬ Text.Severs (gap cs) (afterGap cs) := by
  cases cs with
  | nil => exact Text.not_severs_nil _
  | cons c cs =>
    by_cases hc : c = ' ' ∨ c = '\t'
    · rw [gap, if_pos hc]
      refine Text.not_severs_of_notMem ?_ _
      rcases hc with rfl | rfl <;> decide
    · rw [gap, afterGap, if_neg hc, if_neg hc]
      exact Text.not_severs_lineBreak (c :: cs)

/-- An escape takes the whole of the line break that ends it. -/
theorem not_severs_scan {cs : List Char} (h : Text.startsLineBreak cs = false) :
    ¬ Text.Severs (scan cs).lexeme (scan cs).rest := by
  cases cs with
  | nil => exact Text.not_severs_nil _
  | cons c cs =>
    rw [scan]
    split
    · rename_i hhex
      refine Text.not_severs_append ?_ (not_severs_gap _)
      refine Text.not_severs_of_notMem (fun hmem => ?_) _
      rcases List.mem_cons.mp hmem with rfl | hmem
      · cases hhex
      · have hall : Text.isHex '\r' := List.all_eq_true.mp List.all_takeWhile _ hmem
        cases hall
    · refine Text.not_severs_of_notMem (fun hmem => ?_) _
      obtain rfl := List.mem_singleton.mp hmem
      cases h

end Escape

namespace Name

/-- A name ends in no carriage return, but for an escape that ends in a whole line break. -/
theorem not_severs_scan (cs : List Char) : ¬ Text.Severs (scan cs).lexeme (scan cs).rest := by
  fun_induction scan cs with
  | case1 => exact Text.not_severs_nil _
  | case2 c cs hpart ih =>
    refine Text.not_severs_append (Text.not_severs_of_notMem (fun hmem => ?_) _) ih
    obtain rfl := List.mem_singleton.mp hmem
    cases hpart
  | case3 c cs hpart hescape ih =>
    refine Text.not_severs_append ?_ ih
    rw [Scan.rest_behind, splits_scan]
    have hslash : ¬ Text.Severs ['\\'] ((Escape.scan cs).lexeme ++ (Escape.scan cs).rest) :=
      Text.not_severs_of_notMem (by decide) _
    exact Text.not_severs_append hslash (Escape.not_severs_scan hescape.2)
  | case4 => exact Text.not_severs_nil _

end Name

namespace Token

variable {text : List Char} {t : Scan Token}

/-- Whitespace is taken as a whole. -/
theorem not_severs_of_space (ht : scan? text = some t) (h : t.value = .space) :
    ¬ Text.Severs t.lexeme t.rest := by
  have hsplits := splits_of_scan?_eq_some ht
  have hspace := isSpace_of_space ht h
  obtain ⟨c, cs, hlexeme⟩ := List.exists_cons_of_ne_nil (lexeme_ne_nil_of_scan?_eq_some ht)
  have hc : Text.isSpace c := hspace c (hlexeme ▸ List.mem_cons_self)
  rw [Scan.Splits, hlexeme, List.cons_append] at hsplits
  rw [← hsplits, scan?_of_isSpace hc] at ht
  refine Text.not_severs_of_head? (fun hhead => ?_) _
  rw [← Option.some.inj ht, Scan.rest_map, Scan.takeWhile] at hhead
  have hnot := List.head?_dropWhile_not Text.isSpace (c :: (cs ++ t.rest))
  rw [hhead] at hnot
  cases hnot

/-- A comment ends in a slash or at the end of the text. -/
theorem scanComment_ends (cs : List Char) :
    (scanComment cs).rest = [] ∨ (scanComment cs).lexeme.getLast? = some '/' := by
  fun_induction scanComment cs with
  | case1 => exact .inl rfl
  | case2 cs => exact .inr rfl
  | case3 c cs _ ih =>
    refine ih.imp_right fun hlast => ?_
    have hne : (scanComment cs).lexeme ≠ [] := by
      intro hnil
      rw [hnil] at hlast
      cases hlast
    rw [Scan.lexeme_behind, List.getLast?_append_of_ne_nil _ hne, hlast]

theorem not_severs_of_comment {body : List Char} (ht : scan? text = some t)
    (h : t.value = .comment body) : ¬ Text.Severs t.lexeme t.rest := by
  obtain ⟨cs, rfl, rfl⟩ := exists_of_comment ht h
  rcases scanComment_ends cs with hrest | hlast
  · rw [Scan.rest_behind, hrest]
    exact Text.not_severs_of_head? (by simp) _
  · refine Text.not_severs_append (Text.not_severs_of_notMem (by decide) _) fun hsevers => ?_
    rw [Text.Severs, hlast] at hsevers
    cases hsevers.1

theorem not_severs_of_atKeyword {name : List Char} (ht : scan? text = some t)
    (h : t.value = .atKeyword name) : ¬ Text.Severs t.lexeme t.rest := by
  obtain ⟨cs, rfl, rfl⟩ := exists_of_atKeyword ht h
  exact Text.not_severs_append (Text.not_severs_of_notMem (by decide) _) (Name.not_severs_scan cs)

end Token

namespace Prelude

/-- A prelude ends before no line feed. -/
theorem not_severs_scan (inBlock : Bool) (text : List Char) :
    ¬ Text.Severs (scan inBlock text).lexeme (scan inBlock text).rest := by
  refine Text.not_severs_of_head? (fun hhead => ?_) _
  have hends := endsBefore_rest_scan inBlock text
  obtain ⟨rest, hrest⟩ := List.head?_eq_some_iff.mp hhead
  rw [hrest] at hends
  cases inBlock <;> cases hends

end Prelude

namespace Cursor

/-- The cursor has passed `before` in the text `text`, and stands in no line break. -/
structure IsAt (cursor : Cursor) (text before : List Char) : Prop where
  append_unread : before ++ cursor.unread = text
  position_eq : cursor.position = Position.start.after before
  not_severs : ¬ Text.Severs before cursor.unread

variable {cursor cursor' : Cursor} {text before behind : List Char}

theorem isAt_ofText (text : List Char) : (ofText text).IsAt text [] :=
  ⟨rfl, rfl, Text.not_severs_nil _⟩

/-- Passing what was scanned leads behind it. -/
theorem IsAt.pass {α : Type} (h : cursor.IsAt text before) {s : Scan α}
    (hs : s.Splits cursor.unread) (hcut : ¬ Text.Severs s.lexeme s.rest) :
    (cursor.pass s).IsAt text (before ++ s.lexeme) where
  append_unread := by
    rw [Cursor.pass, List.append_assoc, hs, h.append_unread]
  position_eq := by
    have hbefore : ¬ Text.Severs before s.lexeme :=
      Text.not_severs_of_prefix (hs.symm ▸ h.not_severs)
    rw [Position.after_append _ hbefore, ← h.position_eq]
    rfl
  not_severs := Text.not_severs_append (hs.symm ▸ h.not_severs) hcut

/-- The less there is to read, the further on is the position. -/
theorem IsAt.position_lt (h : cursor.IsAt text before) (h' : cursor'.IsAt text behind)
    (hlt : cursor'.unread.length < cursor.unread.length) : cursor.position < cursor'.position := by
  have hprefix : before <+: behind := by
    refine List.prefix_of_prefix_length_le ⟨_, h.append_unread⟩ ⟨_, h'.append_unread⟩ ?_
    have hlength := congrArg List.length (h.append_unread.trans h'.append_unread.symm)
    rw [List.length_append, List.length_append] at hlength
    omega
  obtain ⟨between, rfl⟩ := hprefix
  have hunread : between ++ cursor'.unread = cursor.unread := by
    have := h'.append_unread.trans h.append_unread.symm
    rwa [List.append_assoc, List.append_cancel_left_eq] at this
  have hne : between ≠ [] := by
    rintro rfl
    rw [← hunread, List.nil_append] at hlt
    exact Nat.lt_irrefl _ hlt
  have hcut : ¬ Text.Severs before between := Text.not_severs_of_prefix (hunread ▸ h.not_severs)
  rw [h.position_eq, h'.position_eq, Position.after_append _ hcut]
  exact Position.lt_after _ hne

end Cursor

namespace Reader

variable {r : Reader} {text before : List Char}

theorem exists_isAt_behindPrelude (h : r.cursor.IsAt text before) (start : Position)
    {head : Scan (List Piece)} (hs : head.Splits r.cursor.unread)
    (hcut : ¬ Text.Severs head.lexeme head.rest) (withBlock : NodeKind)
    (outcome : Except SkipReason NodeKind) :
    ∃ passed, (r.behindPrelude start head withBlock outcome).cursor.IsAt text passed := by
  have hhead := h.pass hs hcut
  have hsign : ∀ {sign : Char} {rest : List Char}, sign ≠ '\r' → head.rest = sign :: rest →
      ((r.cursor.pass head).pass ⟨[sign], (), rest⟩).IsAt text (before ++ head.lexeme ++ [sign]) :=
    fun hne hrest => hhead.pass hrest.symm
      (Text.not_severs_of_notMem (by simpa using hne.symm) _)
  unfold behindPrelude
  split
  · rename_i rest hrest
    exact ⟨_, hsign (by decide) hrest⟩
  · rename_i rest hrest
    rw [cursor_endStatement]
    exact ⟨_, hsign (by decide) hrest⟩
  · rw [cursor_endStatement]
    exact ⟨_, hhead⟩

/-- A step of the reader leads to a cut that is in no line break. -/
theorem exists_isAt_step (h : r.cursor.IsAt text before) {t : Scan Token}
    (ht : Token.scan? r.cursor.unread = some t) :
    ∃ passed, (r.step t).cursor.IsAt text passed := by
  have hsplits := Token.splits_of_scan?_eq_some ht
  have hstatement : ∃ passed, r.readStatement.cursor.IsAt text passed :=
    exists_isAt_behindPrelude h _ (Prelude.splits_scan _ _) (Prelude.not_severs_scan _ _) _ _
  have hsign : ∀ {d : Char}, Text.IsHard d → t.value = Token.ofChar d →
      (r.cursor.pass t).IsAt text (before ++ t.lexeme) := by
    intro d hd hv
    refine h.pass hsplits (Text.not_severs_of_notMem ?_ _)
    rw [Token.lexeme_of_isHard hd ht hv, List.mem_singleton]
    rintro rfl
    exact absurd hd (by decide)
  unfold step
  split
  · rename_i hv
    exact ⟨_, h.pass hsplits (Token.not_severs_of_space ht hv)⟩
  · rename_i hv
    exact ⟨_, hsign (.inl rfl) hv⟩
  · rename_i body hv
    exact ⟨_, h.pass hsplits (Token.not_severs_of_comment ht hv)⟩
  · rename_i name hv
    have hname := h.pass hsplits (Token.not_severs_of_atKeyword ht hv)
    exact exists_isAt_behindPrelude hname _ (Prelude.splits_scan _ _) (Prelude.not_severs_scan _ _) _ _
  · rename_i hv
    split
    · rw [cursor_closeBlock]
      exact ⟨_, hsign (.inr (.inr rfl)) hv⟩
    · exact hstatement
  · exact hstatement

/-- At the end the reader has passed the whole text. -/
theorem isAt_run (h : r.cursor.IsAt text before) : r.run.cursor.IsAt text text := by
  fun_induction Reader.run r generalizing before with
  | case1 r hnone =>
    have htext := h.append_unread
    rw [Token.scan?_eq_none_iff.mp hnone, List.append_nil] at htext
    exact htext ▸ h
  | case2 r t ht ih =>
    obtain ⟨passed, hat⟩ := exists_isAt_step h ht
    exact ih hat

end Reader

end Typography
