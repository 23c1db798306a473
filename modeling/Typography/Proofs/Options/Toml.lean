import Typography.Proofs.Options.TomlString

/-!
# The texts of options in TOML

Next to the functions that read an options file stands the grammar of the texts that they read.
It has the parts of TOML that such a file can use: blank lines and comments, the key, and strings.
Each function reads exactly what its part of the grammar describes, so a file has options exactly
if it is a text of these options, `decode?_eq_some_iff`.
-/

namespace Typography.Options.Toml

/-! ### The grammar -/

/-- A line, or the rest of one, that is blank but for a comment. -/
inductive IsIdle : List Char → Prop
  | blank {s : List Char} : AreBlanks s → IsIdle s
  | comment {s body : List Char} :
    AreBlanks s → (∀ c ∈ body, isPlain c) → IsIdle (s ++ '#' :: body)

/-- Such lines, each with its line break. -/
inductive AreIdleLines : List Char → Prop
  | nil : AreIdleLines []
  | cons {line b lines : List Char} :
    IsIdle line → IsLineBreak b → AreIdleLines lines → AreIdleLines (line ++ (b ++ lines))

/-- What may stand before the key. -/
def IsLead (s : List Char) : Prop :=
  ∃ lines blanks, s = lines ++ blanks ∧ AreIdleLines lines ∧ AreBlanks blanks

/-- What may stand behind the value, and in a file without a key. -/
def IsTail (s : List Char) : Prop :=
  ∃ lines line, s = lines ++ line ∧ AreIdleLines lines ∧ IsIdle line

/-- The key of the root size, without delimiters or with them. -/
inductive IsKey : List Char → Prop
  | bare : IsKey rootSizeKey
  | quoted {quote : Char} {hasEscapes : Bool} {body : List Char} :
    IsDelimiter quote hasEscapes → Spells quote hasEscapes body rootSizeKey →
      IsKey (quote :: (body ++ [quote]))

/-- A root size with its key. -/
def IsRootSize (size s : List Char) : Prop :=
  ∃ key s₁ s₂ value, s = key ++ (s₁ ++ '=' :: (s₂ ++ value)) ∧ IsKey key ∧ AreBlanks s₁ ∧
    AreBlanks s₂ ∧ IsString size value

/-- What an options file holds: the root size, or nothing, with blank lines and comments around. -/
inductive IsFile : Options → List Char → Prop
  | unset {s : List Char} : IsTail s → IsFile .unset s
  | rootSize {s₁ size member s₂ : List Char} : IsLead s₁ → IsRootSize size member → IsTail s₂ →
      IsFile ⟨some (String.ofList size)⟩ (s₁ ++ (member ++ s₂))

/-- A text of options, with a byte order mark or without one. -/
def IsText (options : Options) (text : String) : Prop :=
  ∃ mark file, text.toList = mark ++ file ∧ (mark = [] ∨ mark = ['\ufeff']) ∧ IsFile options file

/-! ### Lines without a value -/

theorem areBlanks_nil : AreBlanks [] :=
  fun _ hc => absurd hc List.not_mem_nil

theorem IsIdle.cons {c : Char} {line : List Char} (hc : isBlank c) (h : IsIdle line) :
    IsIdle (c :: line) := by
  cases h with
  | blank hs => exact .blank (List.forall_mem_cons.mpr ⟨hc, hs⟩)
  | comment hs hbody => exact .comment (List.forall_mem_cons.mpr ⟨hc, hs⟩) hbody

theorem skipComments?_lineBreak {b : List Char} (hb : IsLineBreak b) (inComment : Bool)
    (cs : List Char) : skipComments? inComment (b ++ cs) = skipComments? false cs := by
  cases hb <;> cases inComment <;> rfl

theorem skipComments?_plain {c : Char} (hc : isPlain c) (cs : List Char) :
    skipComments? true (c :: cs) = skipComments? true cs := by
  rw [skipComments?]
  · exact if_pos hc
  all_goals
    intros
    subst_vars
    exact absurd hc (by decide)

theorem skipComments?_blank {c : Char} (hc : isBlank c) (cs : List Char) :
    skipComments? false (c :: cs) = skipComments? false cs := by
  rw [skipComments?]
  · exact if_pos hc
  all_goals
    intros
    subst_vars
    exact absurd hc (by decide)

theorem skipComments?_comment {body : List Char} (hbody : ∀ c ∈ body, isPlain c) (cs : List Char) :
    skipComments? true (body ++ cs) = skipComments? true cs := by
  induction body with
  | nil => rfl
  | cons c body ih =>
    rw [List.forall_mem_cons] at hbody
    rw [List.cons_append, skipComments?_plain hbody.1, ih hbody.2]

theorem skipComments?_blanks {s : List Char} (hs : AreBlanks s) (cs : List Char) :
    skipComments? false (s ++ cs) = skipComments? false cs := by
  induction s with
  | nil => rfl
  | cons c s ih =>
    rw [AreBlanks, List.forall_mem_cons] at hs
    rw [List.cons_append, skipComments?_blank hs.1, ih hs.2]

theorem IsIdle.skipComments?_append {line : List Char} (h : IsIdle line) {b : List Char}
    (hb : IsLineBreak b) (cs : List Char) :
    skipComments? false (line ++ (b ++ cs)) = skipComments? false cs := by
  cases h with
  | blank hs => rw [skipComments?_blanks hs, skipComments?_lineBreak hb]
  | comment hs hbody =>
    rw [List.append_assoc, skipComments?_blanks hs, List.cons_append, skipComments?,
      skipComments?_comment hbody, skipComments?_lineBreak hb]

theorem IsIdle.skipComments?_eq {line : List Char} (h : IsIdle line) :
    skipComments? false line = some [] := by
  cases h with
  | blank hs => rw [← List.append_nil line, skipComments?_blanks hs, skipComments?]
  | @comment s body hs hbody =>
    rw [skipComments?_blanks hs, skipComments?, ← List.append_nil body,
      skipComments?_comment hbody, skipComments?]

theorem AreIdleLines.skipComments?_append {lines : List Char} (h : AreIdleLines lines)
    (cs : List Char) : skipComments? false (lines ++ cs) = skipComments? false cs := by
  induction h with
  | nil => rfl
  | cons hline hb _ ih =>
    rw [List.append_assoc, List.append_assoc, hline.skipComments?_append hb, ih]

/-- A comment goes on to the end of the text or of its line. -/
theorem exists_of_skipComments?_true {cs rest : List Char} (h : skipComments? true cs = some rest) :
    ∃ body, (∀ c ∈ body, isPlain c) ∧ (cs = body ∧ rest = [] ∨
      ∃ b behind, IsLineBreak b ∧ cs = body ++ (b ++ behind) ∧
        skipComments? false behind = some rest) := by
  have hnil : ∀ c ∈ ([] : List Char), isPlain c := fun _ hc => absurd hc List.not_mem_nil
  induction cs with
  | nil =>
    cases h
    exact ⟨[], hnil, .inl ⟨rfl, rfl⟩⟩
  | cons c cs ih =>
    unfold skipComments? at h
    split at h
    · rename_i hcs
      cases hcs
    · rename_i hcs
      cases hcs
      exact ⟨[], hnil, .inr ⟨_, _, .lf, rfl, h⟩⟩
    · rename_i hcs
      cases hcs
      exact ⟨[], hnil, .inr ⟨_, _, .crlf, rfl, h⟩⟩
    · rename_i hcs
      cases hcs
      split at h
      · rename_i hc
        obtain ⟨body, hbody, hend⟩ := ih h
        refine ⟨c :: body, List.forall_mem_cons.mpr ⟨hc, hbody⟩, ?_⟩
        rcases hend with ⟨rfl, rfl⟩ | ⟨b, behind, hb, rfl, hbehind⟩
        · exact .inl ⟨rfl, rfl⟩
        · exact .inr ⟨b, behind, hb, rfl, hbehind⟩
      · cases h
    · rename_i hfalse _
      cases hfalse
    · rename_i hfalse _
      cases hfalse

/-- What is skipped up to `rest`: idle lines, and the part of one that stands before the rest. -/
def Skips (cs rest : List Char) : Prop :=
  ∃ lines line, cs = lines ++ (line ++ rest) ∧ AreIdleLines lines ∧ IsIdle line ∧
    (rest ≠ [] → AreBlanks line)

theorem skips_refl (cs : List Char) : Skips cs cs :=
  ⟨[], [], rfl, .nil, .blank areBlanks_nil, fun _ => areBlanks_nil⟩

theorem Skips.lineBreak {cs rest line b : List Char} (h : Skips cs rest) (hline : IsIdle line)
    (hb : IsLineBreak b) : Skips (line ++ (b ++ cs)) rest := by
  obtain ⟨lines, last, rfl, hlines, hlast, hblanks⟩ := h
  exact ⟨_, last, by simp only [List.append_assoc], .cons hline hb hlines, hlast, hblanks⟩

theorem Skips.blank {c : Char} {cs rest : List Char} (h : Skips cs rest) (hc : isBlank c) :
    Skips (c :: cs) rest := by
  obtain ⟨_, last, rfl, hlines, hlast, hblanks⟩ := h
  cases hlines with
  | nil =>
    exact ⟨[], c :: last, rfl, .nil, hlast.cons hc,
      fun hrest => List.forall_mem_cons.mpr ⟨hc, hblanks hrest⟩⟩
  | cons hline hb hlines =>
    exact ⟨_, last, by simp, .cons (hline.cons hc) hb hlines, hlast, hblanks⟩

theorem skips_of_skipComments? {cs rest : List Char} (h : skipComments? false cs = some rest) :
    Skips cs rest := by
  induction hn : cs.length using Nat.strong_induction_on generalizing cs with
  | h n ih =>
    unfold skipComments? at h
    split at h
    · cases h
      exact skips_refl []
    · exact (ih _ (hn ▸ Nat.lt_succ_self _) h rfl).lineBreak (.blank areBlanks_nil) .lf
    · exact (ih _ (hn ▸ Nat.lt_succ_of_lt (Nat.lt_succ_self _)) h rfl).lineBreak
        (.blank areBlanks_nil) .crlf
    · rename_i hfalse
      cases hfalse
    · rename_i behind _
      obtain ⟨body, hbody, ⟨rfl, rfl⟩ | ⟨b, rest', hb, rfl, hrest⟩⟩ :=
        exists_of_skipComments?_true h
      · exact ⟨[], '#' :: behind, by simp, .nil, .comment areBlanks_nil hbody,
          fun hne => absurd rfl hne⟩
      · have hlonger : rest'.length < n := by
          simp only [List.length_cons, List.length_append] at hn
          omega
        exact (ih _ hlonger hrest rfl).lineBreak (.comment areBlanks_nil hbody) hb
    · split at h
      · exact (ih _ (hn ▸ Nat.lt_succ_self _) h rfl).blank ‹_›
      · cases h
        exact skips_refl _

theorem skipComments?_eq_nil_iff {cs : List Char} :
    skipComments? false cs = some [] ↔ IsTail cs := by
  constructor
  · intro h
    obtain ⟨lines, line, rfl, hlines, hline, -⟩ := skips_of_skipComments? h
    exact ⟨lines, line, by rw [List.append_nil], hlines, hline⟩
  · rintro ⟨lines, line, rfl, hlines, hline⟩
    rw [hlines.skipComments?_append, hline.skipComments?_eq]

/-- A text that is not skipped: it starts with what no blank line and no comment starts with. -/
def IsHeld (cs : List Char) : Prop :=
  ∃ c behind, cs = c :: behind ∧ isBlank c = false ∧ c ≠ '#' ∧ c ≠ '\n' ∧ c ≠ '\r'

theorem IsLead.skipComments?_append {s cs : List Char} (hs : IsLead s) (hcs : IsHeld cs) :
    skipComments? false (s ++ cs) = some cs := by
  obtain ⟨lines, blanks, rfl, hlines, hblanks⟩ := hs
  obtain ⟨c, behind, rfl, hc, hhash, hlf, hcr⟩ := hcs
  rw [List.append_assoc, hlines.skipComments?_append, skipComments?_blanks hblanks, skipComments?]
  · exact if_neg (by simp [hc])
  · exact hlf
  · exact fun _ h => absurd h hcr
  · exact hhash

theorem IsTail.not_isHeld {s : List Char} (h : IsTail s) : ¬IsHeld s := by
  intro hheld
  have hlead : IsLead [] := ⟨[], [], rfl, .nil, areBlanks_nil⟩
  cases (skipComments?_eq_nil_iff.mpr h).symm.trans (hlead.skipComments?_append hheld)
  obtain ⟨_, _, hnil, -⟩ := hheld
  cases hnil

theorem IsTail.isApart {s : List Char} (h : IsTail s) : IsApart s := by
  constructor
  all_goals
    intro hhead
    obtain ⟨behind, rfl⟩ := List.head?_eq_some_iff.mp hhead
    exact h.not_isHeld ⟨_, behind, rfl, rfl, by decide, by decide, by decide⟩

/-! ### The root size -/

theorem readKey?_of_isKey {key rest : List Char} (hkey : IsKey key)
    (hrest : ∀ c ∈ rest.head?, isKeyChar c = false) :
    readKey? (key ++ rest) = some (rootSizeKey, rest) := by
  cases hkey with
  | bare =>
    have hall : ∀ c ∈ rootSizeKey, isKeyChar c := List.all_eq_true.mp (by decide +kernel)
    have hend : rest.takeWhile isKeyChar = [] ∧ rest.dropWhile isKeyChar = rest := by
      cases rest with
      | nil => exact ⟨rfl, rfl⟩
      | cons c rest =>
        have hc : ¬isKeyChar c := by simp [hrest c rfl]
        exact ⟨List.takeWhile_cons_of_neg hc, List.dropWhile_cons_of_neg hc⟩
    have hread : readKey? (rootSizeKey ++ rest) = some ((rootSizeKey ++ rest).takeWhile isKeyChar,
        (rootSizeKey ++ rest).dropWhile isKeyChar) := rfl
    rw [hread, List.takeWhile_append_of_pos hall, List.dropWhile_append_of_pos hall, hend.1, hend.2,
      List.append_nil]
  | quoted hquote hbody =>
    have hread := readLine?_of_spells hquote hbody rest
    rw [List.cons_append, List.append_assoc, List.singleton_append]
    cases hquote <;> exact hread

theorem exists_of_readKey? {cs rest : List Char} (h : readKey? cs = some (rootSizeKey, rest)) :
    ∃ key, IsKey key ∧ cs = key ++ rest := by
  unfold readKey? at h
  split at h
  · obtain ⟨body, hbody, hcs⟩ := exists_of_readLine?_quoted h
    exact ⟨_, .quoted .quote hbody, hcs⟩
  · obtain ⟨body, hbody, hcs⟩ := exists_of_readLine?_quoted h
    exact ⟨_, .quoted .apostrophe hbody, hcs⟩
  · obtain ⟨hkey, hrest⟩ := Prod.mk.injEq .. ▸ Option.some.inj h
    exact ⟨_, .bare, by rw [← hkey, ← hrest, List.takeWhile_append_dropWhile]⟩

theorem exists_dropWhile_isBlank (cs : List Char) :
    ∃ s, AreBlanks s ∧ cs = s ++ cs.dropWhile isBlank :=
  ⟨_, fun _ hc => List.mem_takeWhile_imp hc, List.takeWhile_append_dropWhile.symm⟩

theorem dropWhile_isBlank {s : List Char} (hs : AreBlanks s) {c : Char} (hc : isBlank c = false)
    (cs : List Char) : (s ++ c :: cs).dropWhile isBlank = c :: cs := by
  rw [List.dropWhile_append_of_pos hs, List.dropWhile_cons_of_neg (by simp [hc])]

theorem exists_of_readRootSize? {cs size rest : List Char}
    (h : readRootSize? cs = some (size, rest)) :
    ∃ member, IsRootSize size member ∧ cs = member ++ rest := by
  obtain ⟨⟨key, behind⟩, hread, hmember⟩ := Option.bind_eq_some_iff.mp h
  obtain ⟨_, hguard, hvalue⟩ := Option.bind_eq_some_iff.mp hmember
  obtain rfl := (Option.guard_eq_some' _).mp hguard
  obtain ⟨key, hkey, rfl⟩ := exists_of_readKey? hread
  obtain ⟨s₁, hs₁, hbehind⟩ := exists_dropWhile_isBlank behind
  split at hvalue
  · rename_i inside hequals
    obtain ⟨s₂, hs₂, hinside⟩ := exists_dropWhile_isBlank inside
    obtain ⟨value, hstring, hrest⟩ := exists_of_readString? hvalue
    refine ⟨_, ⟨key, s₁, s₂, value, rfl, hkey, hs₁, hs₂, hstring⟩, ?_⟩
    rw [hbehind, hequals, hinside, hrest]
    simp
  · cases hvalue

theorem readRootSize?_of_isRootSize {size member rest : List Char} (h : IsRootSize size member)
    (hrest : IsApart rest) : readRootSize? (member ++ rest) = some (size, rest) := by
  obtain ⟨key, s₁, s₂, value, rfl, hkey, hs₁, hs₂, hvalue⟩ := h
  have hbehind : ∀ c ∈ (s₁ ++ '=' :: (s₂ ++ (value ++ rest))).head?, isKeyChar c = false := by
    cases s₁ with
    | nil =>
      rintro _ ⟨⟩
      rfl
    | cons c s =>
      rintro _ ⟨⟩
      have hc := hs₁ c List.mem_cons_self
      rw [isBlank, Bool.or_eq_true, beq_iff_eq, beq_iff_eq] at hc
      rcases hc with rfl | rfl <;> rfl
  have hstart : (s₂ ++ (value ++ rest)).dropWhile isBlank = value ++ rest := by
    cases hvalue with
    | line hquote => cases hquote <;> exact dropWhile_isBlank hs₂ rfl _
    | lines hquote => cases hquote <;> exact dropWhile_isBlank hs₂ rfl _
    | linesBelow hquote => cases hquote <;> exact dropWhile_isBlank hs₂ rfl _
  simp only [List.append_assoc, List.cons_append]
  refine Option.bind_eq_some_iff.mpr ⟨(rootSizeKey, _), readKey?_of_isKey hkey hbehind, ?_⟩
  refine Option.bind_eq_some_iff.mpr ⟨(), if_pos rfl, ?_⟩
  rw [dropWhile_isBlank hs₁ rfl]
  exact (congrArg readString? hstart).trans (readString?_of_isString hvalue hrest)

/-- A root size does not start as a blank line, a comment or a byte order mark. -/
theorem IsRootSize.isHeld_append {size member : List Char} (h : IsRootSize size member)
    (rest : List Char) :
    IsHeld (member ++ rest) ∧ (member ++ rest).head? ≠ some '\ufeff' := by
  have hstart (c : Char) (hc : isBlank c = false ∧ c ≠ '#' ∧ c ≠ '\n' ∧ c ≠ '\r' ∧ c ≠ '\ufeff')
      (behind : List Char) : IsHeld (c :: behind) ∧ (c :: behind).head? ≠ some '\ufeff' :=
    ⟨⟨c, behind, rfl, hc.1, hc.2.1, hc.2.2.1, hc.2.2.2.1⟩,
      fun h => hc.2.2.2.2 (Option.some.inj h)⟩
  obtain ⟨key, s₁, s₂, value, rfl, hkey, -⟩ := h
  cases hkey with
  | bare => exact hstart 'r' (by decide) _
  | quoted hquote => cases hquote <;> exact hstart _ (by decide) _

/-! ### Files -/

/-- A byte order mark is skipped once, and nothing else that leads up to a file is one. -/
theorem skipMark_append {mark cs rest : List Char} (hmark : mark = [] ∨ mark = ['\ufeff'])
    (hskip : skipComments? false cs = some rest) (hrest : rest.head? ≠ some '\ufeff') :
    skipMark (mark ++ cs) = cs := by
  rcases hmark with rfl | rfl
  · rw [List.nil_append, skipMark]
    rintro behind rfl
    cases hskip
    exact hrest rfl
  · rfl

theorem exists_skipMark (cs : List Char) :
    ∃ mark, (mark = [] ∨ mark = ['\ufeff']) ∧ cs = mark ++ skipMark cs := by
  unfold skipMark
  split
  · exact ⟨_, .inr rfl, rfl⟩
  · exact ⟨_, .inl rfl, rfl⟩

theorem isText_of_decode? {text : String} {options : Options} (h : decode? text = some options) :
    IsText options text := by
  obtain ⟨mark, hmark, htext⟩ := exists_skipMark text.toList
  refine ⟨mark, _, htext, hmark, ?_⟩
  obtain ⟨cs, hskip, hfile⟩ := Option.bind_eq_some_iff.mp h
  split at hfile
  · rename_i hempty
    cases hfile
    rw [List.isEmpty_iff.mp hempty] at hskip
    exact .unset (skipComments?_eq_nil_iff.mp hskip)
  · rename_i hne
    obtain ⟨⟨size, rest⟩, hread, hbehind⟩ := Option.bind_eq_some_iff.mp hfile
    obtain ⟨_, hguard, hsome⟩ := Option.bind_eq_some_iff.mp hbehind
    cases hsome
    obtain ⟨lines, blanks, hlead, hlines, -, hblanks⟩ := skips_of_skipComments? hskip
    replace hblanks := hblanks fun hnil => hne (List.isEmpty_iff.mpr hnil)
    obtain ⟨member, hmember, rfl⟩ := exists_of_readRootSize? hread
    have htail := skipComments?_eq_nil_iff.mp ((Option.guard_eq_some' _).mp hguard)
    rw [hlead, ← List.append_assoc]
    exact .rootSize ⟨lines, blanks, rfl, hlines, hblanks⟩ hmember htail

theorem IsText.decode?_eq {text : String} {options : Options} (h : IsText options text) :
    decode? text = some options := by
  obtain ⟨mark, file, htext, hmark, hfile⟩ := h
  rw [decode?, htext]
  cases hfile with
  | unset htail =>
    have hskip := skipComments?_eq_nil_iff.mpr htail
    rw [skipMark_append hmark hskip (Option.some_ne_none _).symm, hskip]
    rfl
  | @rootSize s₁ size member s₂ hlead hmember htail =>
    obtain ⟨hheld, hmark'⟩ := hmember.isHeld_append s₂
    have hskip := hlead.skipComments?_append hheld
    rw [skipMark_append hmark hskip hmark']
    refine Option.bind_eq_some_iff.mpr ⟨_, hskip, ?_⟩
    obtain ⟨c, behind, hcons, -⟩ := hheld
    rw [if_neg (by simp [hcons])]
    refine Option.bind_eq_some_iff.mpr ⟨_, readRootSize?_of_isRootSize hmember htail.isApart, ?_⟩
    exact Option.bind_eq_some_iff.mpr
      ⟨(), if_pos (skipComments?_eq_nil_iff.mpr htail), rfl⟩

/-- A text is read as options exactly if it is a text of these options. -/
theorem decode?_eq_some_iff {text : String} {options : Options} :
    decode? text = some options ↔ IsText options text :=
  ⟨isText_of_decode?, IsText.decode?_eq⟩

/-- A comment, a key with an escape, and a string on two lines, whose line breaks are not part of
it. -/
example : IsText ⟨some "16px"⟩
    "# size\r\n\"root\\u0053ize\" = \"\"\"\n16\\\n  px\"\"\" # end" :=
  decode?_eq_some_iff.mp (by decide +kernel)

end Typography.Options.Toml
