import Mathlib.Data.List.TakeWhile
import Mathlib.Data.Option.Basic
import Typography.Options.Toml

/-!
# Strings in TOML

A string stands between quotes, with escapes in it, or between apostrophes, without them. With one
delimiter on either side it is on one line, with three it may be on several. The grammar of these
strings stands here beside their readers: what is read of a text is a string of the grammar and
what it stands for, and each string is read if no delimiter comes behind it.
-/

namespace Typography.Options.Toml

/-! ### The grammar -/

/-- Whitespace within a line. -/
def AreBlanks (s : List Char) : Prop :=
  ∀ c ∈ s, isBlank c

/-- How a line ends. -/
inductive IsLineBreak : List Char → Prop
  | lf : IsLineBreak ['\n']
  | crlf : IsLineBreak ['\r', '\n']

/-- Blanks and line breaks. -/
inductive AreSpaces : List Char → Prop
  | nil : AreSpaces []
  | blank {c : Char} {s : List Char} : isBlank c → AreSpaces s → AreSpaces (c :: s)
  | lineBreak {b s : List Char} : IsLineBreak b → AreSpaces s → AreSpaces (b ++ s)

/-- A delimiter of strings, and whether a string between two of it may have escapes. -/
inductive IsDelimiter : Char → Bool → Prop
  | quote : IsDelimiter '"' true
  | apostrophe : IsDelimiter '\'' false

/-- Hexadecimal digits of a code point. -/
def IsCodePoint (ch : Char) (digits : List Char) : Prop :=
  ∃ n, Text.hexNumber? digits = some n ∧ Text.charOf? n = some ch

/-- What stands behind the backslash of an escape: a letter, or a code point in four or eight
hexadecimal digits. -/
inductive IsEscape : Char → List Char → Prop
  | letter {c ch : Char} : escapedChar? c = some ch → IsEscape ch [c]
  | short {ch : Char} {digits : List Char} :
    digits.length = 4 → IsCodePoint ch digits → IsEscape ch ('u' :: digits)
  | long {ch : Char} {digits : List Char} :
    digits.length = 8 → IsCodePoint ch digits → IsEscape ch ('U' :: digits)

/-- What stands between the delimiters of a string on one line, and the text that it stands for. -/
inductive Spells (quote : Char) (hasEscapes : Bool) : List Char → List Char → Prop
  | nil : Spells quote hasEscapes [] []
  | plain {c : Char} {body text : List Char} :
    isPlain c → c ≠ quote → ¬(hasEscapes ∧ c = '\\') → Spells quote hasEscapes body text →
      Spells quote hasEscapes (c :: body) (c :: text)
  | escape {ch : Char} {escape body text : List Char} :
    hasEscapes → IsEscape ch escape → Spells quote hasEscapes body text →
      Spells quote hasEscapes ('\\' :: (escape ++ body)) (ch :: text)

/-- What stands between the three delimiters of a string on several lines, and the text that it
stands for. Delimiters may be in it, but no three in a row. A line break of either kind stands for
a line feed. Behind a backslash it stands for nothing, with all whitespace up to the next character
that is none. -/
inductive SpellsLines (quote : Char) (hasEscapes : Bool) : List Char → List Char → Prop
  | nil : SpellsLines quote hasEscapes [] []
  | plain {c : Char} {body text : List Char} :
    isPlain c → ¬(hasEscapes ∧ c = '\\') → ¬[quote, quote, quote] <+: c :: body →
      SpellsLines quote hasEscapes body text → SpellsLines quote hasEscapes (c :: body) (c :: text)
  | lineBreak {b body text : List Char} :
    IsLineBreak b → SpellsLines quote hasEscapes body text →
      SpellsLines quote hasEscapes (b ++ body) ('\n' :: text)
  | escape {ch : Char} {escape body text : List Char} :
    hasEscapes → IsEscape ch escape → SpellsLines quote hasEscapes body text →
      SpellsLines quote hasEscapes ('\\' :: (escape ++ body)) (ch :: text)
  | continuation {s₁ b s₂ body text : List Char} :
    hasEscapes → AreBlanks s₁ → IsLineBreak b → AreSpaces s₂ →
      (∀ c ∈ body.head?, isPlain c ∧ isBlank c = false) → SpellsLines quote hasEscapes body text →
      SpellsLines quote hasEscapes ('\\' :: (s₁ ++ (b ++ (s₂ ++ body)))) text

/-- A string of any kind, and the text that it stands for. A line break behind the three delimiters
that open a string on several lines is not part of it. -/
inductive IsString : List Char → List Char → Prop
  | line {quote : Char} {hasEscapes : Bool} {body text : List Char} :
    IsDelimiter quote hasEscapes → Spells quote hasEscapes body text →
      IsString text (quote :: (body ++ [quote]))
  | lines {quote : Char} {hasEscapes : Bool} {body text : List Char} :
    IsDelimiter quote hasEscapes → SpellsLines quote hasEscapes body text →
      (∀ b behind, IsLineBreak b → body ≠ b ++ behind) →
      IsString text (quote :: quote :: quote :: (body ++ [quote, quote, quote]))
  | linesBelow {quote : Char} {hasEscapes : Bool} {b body text : List Char} :
    IsDelimiter quote hasEscapes → IsLineBreak b → SpellsLines quote hasEscapes body text →
      IsString text (quote :: quote :: quote :: (b ++ (body ++ [quote, quote, quote])))

/-! ### Line breaks and whitespace -/

theorem afterLineBreak?_eq_some_iff {cs rest : List Char} :
    afterLineBreak? cs = some rest ↔ ∃ b, IsLineBreak b ∧ cs = b ++ rest := by
  constructor
  · intro h
    unfold afterLineBreak? at h
    split at h
    · cases h
      exact ⟨_, .lf, rfl⟩
    · cases h
      exact ⟨_, .crlf, rfl⟩
    · cases h
  · rintro ⟨b, hb, rfl⟩
    cases hb <;> rfl

theorem skipLineBreak_append {b : List Char} (hb : IsLineBreak b) (cs : List Char) :
    skipLineBreak (b ++ cs) = cs := by
  rw [skipLineBreak, afterLineBreak?_eq_some_iff.mpr ⟨b, hb, rfl⟩, Option.getD_some]

theorem AreSpaces.skipLines_append {s : List Char} (hs : AreSpaces s) (cs : List Char) :
    skipLines (s ++ cs) = skipLines cs := by
  induction hs with
  | nil => rfl
  | blank hc _ ih =>
    rw [List.cons_append, skipLines]
    · rw [if_pos hc, ih]
    all_goals
      intros
      subst_vars
      exact absurd hc (by decide)
  | lineBreak hb _ ih => cases hb <;> exact ih

theorem exists_skipLines (cs : List Char) : ∃ s, AreSpaces s ∧ cs = s ++ skipLines cs := by
  fun_induction skipLines cs with
  | case1 cs ih =>
    obtain ⟨s, hs, hcs⟩ := ih
    exact ⟨_, .lineBreak .lf hs, congrArg ('\n' :: ·) hcs⟩
  | case2 cs ih =>
    obtain ⟨s, hs, hcs⟩ := ih
    exact ⟨_, .lineBreak .crlf hs, congrArg ('\r' :: '\n' :: ·) hcs⟩
  | case3 c cs _ _ hc ih =>
    obtain ⟨s, hs, hcs⟩ := ih
    exact ⟨_, .blank hc hs, congrArg (c :: ·) hcs⟩
  | case4 c cs => exact ⟨[], .nil, rfl⟩
  | case5 => exact ⟨[], .nil, rfl⟩

theorem skipLines_cons {c : Char} (hplain : isPlain c) (hblank : isBlank c = false)
    (cs : List Char) : skipLines (c :: cs) = c :: cs := by
  rw [skipLines]
  · exact if_neg (by simp [hblank])
  all_goals
    intros
    subst_vars
    exact absurd hplain (by decide)

/-- What whitespace is skipped to is no whitespace. -/
theorem head?_skipLines (cs : List Char) :
    (∀ c ∈ (skipLines cs).head?, isBlank c = false) ∧ afterLineBreak? (skipLines cs) = none := by
  fun_induction skipLines cs with
  | case1 cs ih => exact ih
  | case2 cs ih => exact ih
  | case3 c cs _ _ _ ih => exact ih
  | case4 c cs hlf hcrlf hc =>
    refine ⟨?_, ?_⟩
    · rintro _ ⟨⟩
      exact Bool.eq_false_iff.mpr hc
    · rw [afterLineBreak?]
      · exact fun _ h => hlf (List.cons.inj h).1
      · exact fun cs' h => hcrlf cs' (List.cons.inj h).1 (List.cons.inj h).2
  | case5 =>
    refine ⟨fun _ h => ?_, rfl⟩
    cases h

theorem continuation?_eq_some_iff {cs rest : List Char} :
    continuation? cs = some rest ↔ ∃ s b behind, AreBlanks s ∧ IsLineBreak b ∧
      cs = s ++ (b ++ behind) ∧ skipLines behind = rest := by
  constructor
  · intro h
    obtain ⟨behind, hbreak, hskip⟩ := Option.map_eq_some_iff.mp h
    obtain ⟨b, hb, hcs⟩ := afterLineBreak?_eq_some_iff.mp hbreak
    refine ⟨cs.takeWhile isBlank, b, behind, fun _ hc => List.mem_takeWhile_imp hc, hb, ?_, hskip⟩
    rw [← hcs, List.takeWhile_append_dropWhile]
  · rintro ⟨s, b, behind, hs, hb, rfl, rfl⟩
    refine Option.map_eq_some_iff.mpr ⟨behind, afterLineBreak?_eq_some_iff.mpr ⟨b, hb, ?_⟩, rfl⟩
    rw [List.dropWhile_append_of_pos hs]
    cases hb <;> rfl

/-! ### Escapes -/

theorem readCodePoint?_eq_some_iff {count : Nat} {cs rest : List Char} {ch : Char} :
    readCodePoint? count cs = some (ch, rest) ↔
      ∃ digits, digits.length = count ∧ IsCodePoint ch digits ∧ cs = digits ++ rest := by
  constructor
  · intro h
    unfold readCodePoint? at h
    split at h
    · cases h
    · rename_i hlength
      obtain ⟨_, hdigits, hch⟩ := Option.map_eq_some_iff.mp h
      cases hch
      have htake : (cs.take count).length = count := by
        rw [List.length_take]
        omega
      exact ⟨cs.take count, htake, Option.bind_eq_some_iff.mp hdigits,
        (List.take_append_drop _ _).symm⟩
  · rintro ⟨digits, rfl, hdigits, rfl⟩
    have hlength : ¬(digits ++ rest).length < digits.length := by
      rw [List.length_append]
      omega
    rw [readCodePoint?, if_neg hlength, List.take_left, List.drop_left,
      Option.bind_eq_some_iff.mpr hdigits]
    rfl

theorem readEscape?_eq_some_iff {cs rest : List Char} {ch : Char} :
    readEscape? cs = some (ch, rest) ↔ ∃ escape, IsEscape ch escape ∧ cs = escape ++ rest := by
  constructor
  · intro h
    unfold readEscape? at h
    split at h
    · cases h
    · obtain ⟨digits, hlength, hdigits, rfl⟩ := readCodePoint?_eq_some_iff.mp h
      exact ⟨_, .short hlength hdigits, rfl⟩
    · obtain ⟨digits, hlength, hdigits, rfl⟩ := readCodePoint?_eq_some_iff.mp h
      exact ⟨_, .long hlength hdigits, rfl⟩
    · obtain ⟨_, hletter, hch⟩ := Option.map_eq_some_iff.mp h
      cases hch
      exact ⟨_, .letter hletter, rfl⟩
  · rintro ⟨_, hescape, rfl⟩
    cases hescape with
    | @letter c _ hletter =>
      rw [List.singleton_append, readEscape?, hletter]
      · rfl
      all_goals
        rintro rfl
        cases hletter
    | short hlength hdigits => exact readCodePoint?_eq_some_iff.mpr ⟨_, hlength, hdigits, rfl⟩
    | long hlength hdigits => exact readCodePoint?_eq_some_iff.mpr ⟨_, hlength, hdigits, rfl⟩

/-- The letters of escapes are no whitespace. -/
theorem IsEscape.continuation?_eq_none {ch : Char} {escape : List Char} (h : IsEscape ch escape)
    (cs : List Char) : continuation? (escape ++ cs) = none := by
  have hstart : ∃ c s, escape = c :: s ∧ isBlank c = false ∧ c ≠ '\n' ∧ c ≠ '\r' := by
    cases h with
    | @letter c _ hletter =>
      refine ⟨c, [], rfl, ?_, ?_, ?_⟩
      · rw [isBlank, Bool.or_eq_false_iff, beq_eq_false_iff_ne, beq_eq_false_iff_ne]
        constructor <;> (rintro rfl; cases hletter)
      all_goals
        rintro rfl
        cases hletter
    | short => exact ⟨'u', _, rfl, rfl, by decide, by decide⟩
    | long => exact ⟨'U', _, rfl, rfl, by decide, by decide⟩
  obtain ⟨c, s, rfl, hblank, hlf, hcr⟩ := hstart
  rw [continuation?, List.cons_append, List.dropWhile_cons_of_neg (by simp [hblank]),
    afterLineBreak?, Option.map_none]
  · exact fun _ h => hlf (List.cons.inj h).1
  · exact fun _ h => hcr (List.cons.inj h).1

/-! ### Strings on one line -/

variable {quote : Char} {hasEscapes : Bool}

/-- What is read behind a character. -/
theorem exists_of_map_cons {read : Option (List Char × List Char)} {ch : Char}
    {text rest : List Char}
    (h : (read.map fun (text, rest) => (ch :: text, rest)) = some (text, rest)) :
    ∃ behind, read = some (behind, rest) ∧ text = ch :: behind := by
  obtain ⟨⟨behind, _⟩, hread, hsome⟩ := Option.map_eq_some_iff.mp h
  cases hsome
  exact ⟨behind, hread, rfl⟩

theorem IsDelimiter.ne_backslash (h : IsDelimiter quote hasEscapes) : '\\' ≠ quote := by
  cases h <;> decide

theorem IsDelimiter.not_prefix_backslash (h : IsDelimiter quote hasEscapes) (cs : List Char) :
    ¬[quote, quote, quote] <+: '\\' :: cs :=
  fun hprefix => h.ne_backslash (List.cons_prefix_cons.mp hprefix).1.symm

theorem Spells.head?_ne (hquote : IsDelimiter quote hasEscapes)
    {body text : List Char} (h : Spells quote hasEscapes body text) : body.head? ≠ some quote := by
  cases h with
  | nil => exact (Option.some_ne_none quote).symm
  | plain _ hne => exact fun h => hne (Option.some.inj h)
  | escape => exact fun h => hquote.ne_backslash (Option.some.inj h)

theorem readLine?_of_spells (hquote : IsDelimiter quote hasEscapes) {body text : List Char}
    (h : Spells quote hasEscapes body text) (rest : List Char) :
    readLine? quote hasEscapes (body ++ quote :: rest) = some (text, rest) := by
  induction h with
  | nil => rw [List.nil_append, readLine?, if_pos rfl]
  | plain hc hne hslash _ ih =>
    rw [List.cons_append, readLine?, if_neg hne, if_neg hslash, if_pos hc, ih]
    rfl
  | @escape ch escape body text hhas hescape _ ih =>
    have hread : readEscape? (escape ++ (body ++ quote :: rest)) =
        some (ch, body ++ quote :: rest) :=
      readEscape?_eq_some_iff.mpr ⟨escape, hescape, rfl⟩
    rw [List.cons_append, List.append_assoc, readLine?, if_neg hquote.ne_backslash,
      if_pos ⟨hhas, rfl⟩]
    split
    · rename_i hsome
      cases hread.symm.trans hsome
      rw [ih]
      rfl
    · rename_i hnone
      cases hread.symm.trans hnone

theorem exists_of_readLine? {cs text rest : List Char}
    (h : readLine? quote hasEscapes cs = some (text, rest)) :
    ∃ body, cs = body ++ quote :: rest ∧ Spells quote hasEscapes body text := by
  fun_induction readLine? quote hasEscapes cs generalizing text with
  | case1 => cases h
  | case2 cs =>
    cases h
    exact ⟨[], rfl, .nil⟩
  | case3 c cs hne hslash ch behind hread ih =>
    obtain ⟨_, hline, rfl⟩ := exists_of_map_cons h
    obtain ⟨body, rfl, hbody⟩ := ih hline
    obtain ⟨escape, hescape, rfl⟩ := readEscape?_eq_some_iff.mp hread
    obtain ⟨hhas, rfl⟩ := hslash
    exact ⟨'\\' :: (escape ++ body), by simp, .escape hhas hescape hbody⟩
  | case4 => cases h
  | case5 c cs hne hslash hc ih =>
    obtain ⟨_, hline, rfl⟩ := exists_of_map_cons h
    obtain ⟨body, rfl, hbody⟩ := ih hline
    exact ⟨c :: body, rfl, .plain hc hne hslash hbody⟩
  | case6 => cases h

/-! ### Strings on several lines -/

theorem takeWhile_quote {rest : List Char} (hrest : rest.head? ≠ some quote) (n : ℕ) :
    (List.replicate n quote ++ rest).takeWhile (· == quote) = List.replicate n quote := by
  rw [List.takeWhile_append_of_pos (fun c hc => by simp [List.eq_of_mem_replicate hc])]
  cases rest with
  | nil => rw [List.takeWhile_nil, List.append_nil]
  | cons c rest =>
    rw [List.takeWhile_cons_of_neg (by simpa using hrest), List.append_nil]

theorem exists_replicate (quote : Char) (cs : List Char) :
    ∃ n rest, cs = List.replicate n quote ++ rest ∧ rest.head? ≠ some quote := by
  refine ⟨(cs.takeWhile (· == quote)).length, cs.dropWhile (· == quote), ?_, fun h => ?_⟩
  · have hall : cs.takeWhile (· == quote) =
        List.replicate (cs.takeWhile (· == quote)).length quote :=
      List.eq_replicate_of_mem fun c hc => by simpa using List.mem_takeWhile_imp hc
    rw [← hall, List.takeWhile_append_dropWhile]
  · have hnot := List.head?_dropWhile_not (· == quote) cs
    rw [h] at hnot
    simp at hnot

theorem three_le_iff {cs : List Char} :
    3 ≤ (cs.takeWhile (· == quote)).length ↔ [quote, quote, quote] <+: cs := by
  constructor
  · intro h
    obtain ⟨n, rest, rfl, hrest⟩ := exists_replicate quote cs
    rw [takeWhile_quote hrest, List.length_replicate] at h
    obtain ⟨k, rfl⟩ := Nat.exists_eq_add_of_le h
    exact ⟨List.replicate k quote ++ rest, by
      rw [← List.replicate_append_replicate, List.append_assoc]
      rfl⟩
  · rintro ⟨rest, rfl⟩
    simp

theorem readLines?_closing {n : ℕ} (hn : n ≤ 2) {rest : List Char}
    (hrest : rest.head? ≠ some quote) :
    readLines? quote hasEscapes (List.replicate n quote ++ quote :: quote :: quote :: rest) =
      some (List.replicate n quote, rest) := by
  have hcs : List.replicate n quote ++ quote :: quote :: quote :: rest =
      quote :: (List.replicate (n + 2) quote ++ rest) := by
    rw [← List.cons_append, ← List.replicate_succ,
      ← List.replicate_append_replicate (n := n) (m := 3), List.append_assoc]
    rfl
  have hquotes : (quote :: (List.replicate (n + 2) quote ++ rest)).takeWhile (· == quote) =
      List.replicate (n + 3) quote :=
    takeWhile_quote hrest (n + 3)
  have hdrop : (quote :: (List.replicate (n + 2) quote ++ rest)).drop (3 + n) = rest := by
    have hlength : (List.replicate (n + 3) quote).length = 3 + n := by
      rw [List.length_replicate, Nat.add_comm]
    rw [← List.cons_append, ← List.replicate_succ]
    exact List.drop_left' hlength
  have hinside : min (n + 3 - 3) 2 = n := by omega
  rw [hcs, readLines?]
  simp only [hquotes, List.length_replicate]
  rw [if_pos (by omega), hinside, hdrop]

theorem readLines?_plain {c : Char} {cs : List Char} (hquotes : ¬[quote, quote, quote] <+: c :: cs)
    (hslash : ¬(hasEscapes ∧ c = '\\')) (hc : isPlain c) :
    readLines? quote hasEscapes (c :: cs) =
      (readLines? quote hasEscapes cs).map fun (text, rest) => (c :: text, rest) := by
  have hbreak : afterLineBreak? (c :: cs) = none := by
    rw [afterLineBreak?]
    all_goals
      intro _ h
      cases h
      exact absurd hc (by decide)
  rw [readLines?]
  dsimp only
  rw [if_neg (mt three_le_iff.mp hquotes), if_neg hslash]
  split
  · rename_i hsome
    cases hbreak.symm.trans hsome
  · rw [if_pos hc]

theorem readLines?_lineBreak (hquote : IsDelimiter quote hasEscapes) {b : List Char}
    (hb : IsLineBreak b) (cs : List Char) :
    readLines? quote hasEscapes (b ++ cs) =
      (readLines? quote hasEscapes cs).map fun (text, rest) => ('\n' :: text, rest) := by
  obtain ⟨c, behind, rfl, hquotes, hslash⟩ : ∃ c behind, b = c :: behind ∧
      ¬[quote, quote, quote] <+: c :: (behind ++ cs) ∧ c ≠ '\\' := by
    cases hquote <;> cases hb <;> exact ⟨_, _, rfl, by simp, by decide⟩
  rw [List.cons_append, readLines?]
  dsimp only
  rw [if_neg (mt three_le_iff.mp hquotes), if_neg (fun h => hslash h.2)]
  split
  · rename_i hsome
    cases (afterLineBreak?_eq_some_iff.mpr ⟨_, hb, rfl⟩).symm.trans hsome
    rfl
  · rename_i hnone
    cases (afterLineBreak?_eq_some_iff.mpr ⟨_, hb, rfl⟩).symm.trans hnone

theorem readLines?_escape (hquote : IsDelimiter quote hasEscapes) (hhas : hasEscapes) {ch : Char}
    {escape : List Char} (hescape : IsEscape ch escape) (cs : List Char) :
    readLines? quote hasEscapes ('\\' :: (escape ++ cs)) =
      (readLines? quote hasEscapes cs).map fun (text, rest) => (ch :: text, rest) := by
  have hread : readEscape? (escape ++ cs) = some (ch, cs) :=
    readEscape?_eq_some_iff.mpr ⟨escape, hescape, rfl⟩
  rw [readLines?]
  dsimp only
  rw [if_neg (mt three_le_iff.mp (hquote.not_prefix_backslash _)), if_pos ⟨hhas, rfl⟩]
  split
  · rename_i hsome
    cases (hescape.continuation?_eq_none cs).symm.trans hsome
  · rename_i hsome
    cases hread.symm.trans hsome
    rfl
  · rename_i hnone
    cases hread.symm.trans hnone

theorem readLines?_continuation (hquote : IsDelimiter quote hasEscapes) (hhas : hasEscapes)
    {cs rest : List Char} (h : continuation? cs = some rest) :
    readLines? quote hasEscapes ('\\' :: cs) = readLines? quote hasEscapes rest := by
  rw [readLines?]
  dsimp only
  rw [if_neg (mt three_le_iff.mp (hquote.not_prefix_backslash _)), if_pos ⟨hhas, rfl⟩]
  split
  · rename_i hsome
    cases h.symm.trans hsome
    rfl
  · rename_i hnone _
    cases h.symm.trans hnone
  · rename_i hnone _
    cases h.symm.trans hnone

/-- Up to two delimiters may stand before the three that close a string. -/
theorem spellsLines_replicate (hquote : IsDelimiter quote hasEscapes) {n : ℕ} (hn : n ≤ 2) :
    SpellsLines quote hasEscapes (List.replicate n quote) (List.replicate n quote) := by
  induction n with
  | zero => exact .nil
  | succ n ih =>
    refine .plain ?_ ?_ (fun h => ?_) (ih (by omega))
    · cases hquote <;> rfl
    · exact fun h => hquote.ne_backslash h.2.symm
    · have hlength : 3 ≤ n + 1 := h.length_le.trans_eq (List.length_replicate (n := n + 1))
      omega

/-- Delimiters that are at the front of a text only with those that close it make up the text. -/
theorem SpellsLines.eq_replicate (hquote : IsDelimiter quote hasEscapes)
    {body text rest : List Char} (h : SpellsLines quote hasEscapes body text)
    {k : ℕ} (hfront : List.replicate k quote <+: body ++ rest)
    (hinside : ¬List.replicate k quote <+: body) :
    ∃ n < k, body = List.replicate n quote ∧ text = List.replicate n quote := by
  obtain _ | k := k
  · exact absurd List.nil_prefix hinside
  induction h generalizing k with
  | nil => exact ⟨0, k.succ_pos, rfl, rfl⟩
  | @plain c body text _ _ _ _ ih =>
    obtain ⟨rfl, hrest⟩ := List.cons_prefix_cons.mp hfront
    have hbody : ¬List.replicate k quote <+: body :=
      fun h => hinside (List.cons_prefix_cons.mpr ⟨rfl, h⟩)
    obtain _ | k := k
    · exact absurd List.nil_prefix hbody
    obtain ⟨n, hn, rfl, rfl⟩ := ih k hrest hbody
    exact ⟨n + 1, by omega, rfl, rfl⟩
  | lineBreak hb =>
    cases hb <;> cases hquote <;> cases (List.cons_prefix_cons.mp hfront).1
  | escape => exact absurd (List.cons_prefix_cons.mp hfront).1.symm hquote.ne_backslash
  | continuation => exact absurd (List.cons_prefix_cons.mp hfront).1.symm hquote.ne_backslash

theorem readLines?_of_spellsLines (hquote : IsDelimiter quote hasEscapes)
    {body text rest : List Char} (h : SpellsLines quote hasEscapes body text)
    (hrest : rest.head? ≠ some quote) :
    readLines? quote hasEscapes (body ++ quote :: quote :: quote :: rest) = some (text, rest) := by
  induction h with
  | nil => exact readLines?_closing (Nat.zero_le 2) hrest
  | @plain c body text hc hslash hquotes h ih =>
    by_cases hclose : [quote, quote, quote] <+: c :: (body ++ quote :: quote :: quote :: rest)
    · obtain ⟨n, hn, hbody, htext⟩ :=
        (SpellsLines.plain hc hslash hquotes h).eq_replicate hquote (k := 3) hclose hquotes
      rw [hbody, htext]
      exact readLines?_closing (Nat.le_of_lt_succ hn) hrest
    · rw [List.cons_append, readLines?_plain hclose hslash hc, ih]
      rfl
  | lineBreak hb _ ih =>
    rw [List.append_assoc, readLines?_lineBreak hquote hb, ih]
    rfl
  | escape hhas hescape _ ih =>
    rw [List.cons_append, List.append_assoc, readLines?_escape hquote hhas hescape, ih]
    rfl
  | @continuation s₁ b s₂ body text hhas hs₁ hb hs₂ hbody _ ih =>
    have hskip : skipLines (s₂ ++ (body ++ quote :: quote :: quote :: rest)) =
        body ++ quote :: quote :: quote :: rest := by
      rw [hs₂.skipLines_append]
      cases body with
      | nil => cases hquote <;> exact skipLines_cons rfl rfl _
      | cons c body => exact skipLines_cons (hbody c rfl).1 (hbody c rfl).2 _
    simp only [List.cons_append, List.append_assoc]
    rw [readLines?_continuation hquote hhas
      (continuation?_eq_some_iff.mpr ⟨s₁, b, _, hs₁, hb, rfl, hskip⟩), ih]

theorem exists_of_closing (hquote : IsDelimiter quote hasEscapes) {cs : List Char}
    (h : 3 ≤ (cs.takeWhile (· == quote)).length) {n : ℕ}
    (hn : n = min ((cs.takeWhile (· == quote)).length - 3) 2) :
    cs = List.replicate n quote ++ quote :: quote :: quote :: cs.drop (3 + n) ∧
      SpellsLines quote hasEscapes (List.replicate n quote) (List.replicate n quote) := by
  refine ⟨?_, spellsLines_replicate hquote (by omega)⟩
  obtain ⟨m, rest, rfl, hrest⟩ := exists_replicate quote cs
  rw [takeWhile_quote hrest, List.length_replicate] at h hn
  obtain ⟨k, rfl⟩ : ∃ k, m = n + 3 + k := ⟨m - (n + 3), by omega⟩
  have hlength : (List.replicate (n + 3) quote).length = 3 + n := by
    rw [List.length_replicate, Nat.add_comm]
  rw [← List.replicate_append_replicate, List.append_assoc, List.drop_left' hlength,
    ← List.replicate_append_replicate, List.append_assoc]
  rfl

/-- What comes behind whitespace on several lines is no whitespace itself. -/
theorem SpellsLines.forall_mem_head? {body text rest : List Char}
    (h : SpellsLines quote hasEscapes body text)
    (hblank : ∀ c ∈ (body ++ rest).head?, isBlank c = false)
    (hbreak : afterLineBreak? (body ++ rest) = none) :
    ∀ c ∈ body.head?, isPlain c ∧ isBlank c = false := by
  cases h with
  | nil =>
    intro _ h
    cases h
  | plain hc =>
    rintro _ ⟨⟩
    exact ⟨hc, hblank _ rfl⟩
  | lineBreak hb =>
    cases (afterLineBreak?_eq_some_iff.mpr ⟨_, hb, List.append_assoc _ _ _⟩).symm.trans hbreak
  | escape =>
    rintro _ ⟨⟩
    exact ⟨rfl, rfl⟩
  | continuation =>
    rintro _ ⟨⟩
    exact ⟨rfl, rfl⟩

theorem exists_of_readLines? (hquote : IsDelimiter quote hasEscapes) {cs text rest : List Char}
    (h : readLines? quote hasEscapes cs = some (text, rest)) :
    ∃ body, cs = body ++ quote :: quote :: quote :: rest ∧
      SpellsLines quote hasEscapes body text := by
  fun_induction readLines? quote hasEscapes cs generalizing text with
  | case1 => cases h
  | case2 c cs quotes hquotes =>
    cases h
    exact ⟨_, exists_of_closing hquote hquotes rfl⟩
  | case3 c cs quotes hquotes hslash behind hbehind =>
    rename_i ih
    obtain ⟨hhas, rfl⟩ := hslash
    obtain ⟨body, rfl, hbody⟩ := ih h
    obtain ⟨s₁, b, s, hs₁, hb, rfl, hskip⟩ := continuation?_eq_some_iff.mp hbehind
    obtain ⟨s₂, hs₂, hs⟩ := exists_skipLines s
    have hheld := head?_skipLines s
    rw [hskip] at hs hheld
    refine ⟨'\\' :: (s₁ ++ (b ++ (s₂ ++ body))), ?_,
      .continuation hhas hs₁ hb hs₂ (hbody.forall_mem_head? hheld.1 hheld.2) hbody⟩
    rw [hs]
    simp
  | case4 c cs quotes hquotes hslash ch behind _ hread =>
    rename_i ih
    obtain ⟨hhas, rfl⟩ := hslash
    obtain ⟨_, hlines, rfl⟩ := exists_of_map_cons h
    obtain ⟨body, rfl, hbody⟩ := ih hlines
    obtain ⟨escape, hescape, rfl⟩ := readEscape?_eq_some_iff.mp hread
    exact ⟨'\\' :: (escape ++ body), by simp, .escape hhas hescape hbody⟩
  | case5 => cases h
  | case6 c cs quotes hquotes hslash behind hbreak =>
    rename_i ih
    obtain ⟨_, hread, rfl⟩ := exists_of_map_cons h
    obtain ⟨body, rfl, hbody⟩ := ih hread
    obtain ⟨b, hb, hcs⟩ := afterLineBreak?_eq_some_iff.mp hbreak
    exact ⟨b ++ body, by rw [hcs, List.append_assoc], .lineBreak hb hbody⟩
  | case7 c cs quotes hquotes hslash _ hc =>
    rename_i ih
    obtain ⟨_, hread, rfl⟩ := exists_of_map_cons h
    obtain ⟨body, rfl, hbody⟩ := ih hread
    refine ⟨c :: body, rfl, .plain hc hslash (fun h => hquotes ?_) hbody⟩
    exact three_le_iff.mpr (h.trans (List.prefix_append (c :: body) _))
  | case8 => cases h

/-! ### Strings of any kind -/

/-- No delimiter of a string comes next. -/
def IsApart (rest : List Char) : Prop :=
  rest.head? ≠ some '"' ∧ rest.head? ≠ some '\''

theorem readString?_line (hquote : IsDelimiter quote hasEscapes)
    {cs : List Char} (h : cs.head? = some quote → cs.tail.head? ≠ some quote) :
    readString? (quote :: cs) = readLine? quote hasEscapes cs := by
  cases hquote <;>
  · rw [readString?]
    rintro cs' rfl
    exact h rfl rfl

theorem readString?_lines (hquote : IsDelimiter quote hasEscapes)
    (cs : List Char) : readString? (quote :: quote :: quote :: cs) =
      readLines? quote hasEscapes (skipLineBreak cs) := by
  cases hquote <;> rfl

theorem IsLineBreak.notMem (hquote : IsDelimiter quote hasEscapes)
    {b : List Char} (hb : IsLineBreak b) : quote ∉ b := by
  cases hb <;> cases hquote <;> decide

/-- A text without a line break at its front has none with delimiters behind it. -/
theorem skipLineBreak_of_forall
    (hquote : IsDelimiter quote hasEscapes) {body : List Char}
    (h : ∀ b behind, IsLineBreak b → body ≠ b ++ behind) (rest : List Char) :
    skipLineBreak (body ++ quote :: rest) = body ++ quote :: rest := by
  cases hbreak : afterLineBreak? (body ++ quote :: rest) with
  | none => rw [skipLineBreak, hbreak, Option.getD_none]
  | some behind =>
    obtain ⟨b, hb, hcs⟩ := afterLineBreak?_eq_some_iff.mp hbreak
    rcases List.append_eq_append_iff.mp hcs with ⟨s, rfl, hs⟩ | ⟨s, rfl, -⟩
    · cases s with
      | nil => exact absurd (List.append_nil body).symm (h _ [] (by simpa using hb))
      | cons c s =>
        cases hs
        exact absurd (List.mem_append_right _ List.mem_cons_self) (hb.notMem hquote)
    · exact absurd rfl (h b s hb)

theorem readString?_of_isString {text value rest : List Char} (h : IsString text value)
    (hrest : IsApart rest) : readString? (value ++ rest) = some (text, rest) := by
  have hhead {quote : Char} {hasEscapes : Bool} (hquote : IsDelimiter quote hasEscapes) :
      rest.head? ≠ some quote := by
    cases hquote
    · exact hrest.1
    · exact hrest.2
  cases h with
  | @line quote _ body _ hquote hbody =>
    have hline : (body ++ quote :: rest).head? = some quote →
        (body ++ quote :: rest).tail.head? ≠ some quote := by
      cases body with
      | nil => exact fun _ => hhead hquote
      | cons c body => exact fun h => absurd h (hbody.head?_ne hquote)
    rw [List.cons_append, List.append_assoc, List.singleton_append, readString?_line hquote hline,
      readLine?_of_spells hquote hbody]
  | lines hquote hbody hbreak =>
    simp only [List.cons_append, List.append_assoc, List.nil_append]
    rw [readString?_lines hquote, skipLineBreak_of_forall hquote hbreak,
      readLines?_of_spellsLines hquote hbody (hhead hquote)]
  | linesBelow hquote hb hbody =>
    simp only [List.cons_append, List.append_assoc, List.nil_append]
    rw [readString?_lines hquote, skipLineBreak_append hb,
      readLines?_of_spellsLines hquote hbody (hhead hquote)]

theorem exists_of_readLines?_skipLineBreak
    (hquote : IsDelimiter quote hasEscapes) {cs text rest : List Char}
    (h : readLines? quote hasEscapes (skipLineBreak cs) = some (text, rest)) :
    ∃ value, IsString text value ∧ quote :: quote :: quote :: cs = value ++ rest := by
  obtain ⟨body, hcs, hbody⟩ := exists_of_readLines? hquote h
  cases hbreak : afterLineBreak? cs with
  | some behind =>
    rw [skipLineBreak, hbreak, Option.getD_some] at hcs
    obtain ⟨b, hb, rfl⟩ := afterLineBreak?_eq_some_iff.mp hbreak
    exact ⟨_, .linesBelow hquote hb hbody, by simp [hcs]⟩
  | none =>
    rw [skipLineBreak, hbreak, Option.getD_none] at hcs
    refine ⟨_, .lines hquote hbody fun b behind hb hstart => ?_, by simp [hcs]⟩
    rw [hcs, hstart, List.append_assoc] at hbreak
    cases hbreak.symm.trans (afterLineBreak?_eq_some_iff.mpr ⟨b, hb, rfl⟩)

theorem exists_of_readLine?_quoted {cs text rest : List Char}
    (h : readLine? quote hasEscapes cs = some (text, rest)) :
    ∃ body, Spells quote hasEscapes body text ∧
      quote :: cs = quote :: (body ++ [quote]) ++ rest := by
  obtain ⟨body, rfl, hbody⟩ := exists_of_readLine? h
  exact ⟨body, hbody, by simp⟩

theorem exists_of_readString? {cs text rest : List Char} (h : readString? cs = some (text, rest)) :
    ∃ value, IsString text value ∧ cs = value ++ rest := by
  unfold readString? at h
  split at h
  · exact exists_of_readLines?_skipLineBreak .quote h
  · exact exists_of_readLines?_skipLineBreak .apostrophe h
  · obtain ⟨body, hbody, hcs⟩ := exists_of_readLine?_quoted h
    exact ⟨_, .line .quote hbody, hcs⟩
  · obtain ⟨body, hbody, hcs⟩ := exists_of_readLine?_quoted h
    exact ⟨_, .line .apostrophe hbody, hcs⟩
  · cases h

end Typography.Options.Toml
