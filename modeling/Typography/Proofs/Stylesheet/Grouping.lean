import Typography.Proofs.Stylesheet.Locality

/-!
# Tokens in nested blocks

All tokens of a text, grouped by brackets, with no regard to statements: a function and
each opening bracket start a block, and a closing bracket ends the innermost block if it
matches, and is a token like any other if it does not. The end of the text ends all blocks.

A prelude that is read from the front of a text is a row of components of the block that
the text is in, `Grouping.exists_prelude`.
-/

namespace Typography

/-- A token with the text that it was read from. -/
structure Lexeme where
  token : Token
  text : List Char
  deriving DecidableEq, Repr

/-- The tokens of a text. -/
def Lexeme.all (text : List Char) : List Lexeme :=
  match _h : Token.scan? text with
  | none => []
  | some t => ⟨t.value, t.lexeme⟩ :: all t.rest
termination_by text.length
decreasing_by exact Token.length_rest_lt_of_scan?_eq_some _h

/-- A token that stands alone, or a block from its opening to its closing. A block that
the end of the text closes has no token for it. -/
inductive Component where
  | single (lexeme : Lexeme)
  | block (opener : Lexeme) (inside : List Component) (closer : Option Lexeme)

namespace Component

/-- The first token of a component. -/
def lead : Component → Token
  | single lexeme => lexeme.token
  | block opener _ _ => opener.token

mutual

/-- The text of a component. -/
def text : Component → List Char
  | single lexeme => lexeme.text
  | block opener inside closer =>
    opener.text ++ (textOfAll inside ++ closer.toList.flatMap Lexeme.text)

/-- The text of components. -/
def textOfAll : List Component → List Char
  | [] => []
  | component :: components => component.text ++ textOfAll components

end

/-- The component as a piece of a prelude. -/
def piece (component : Component) : Piece :=
  ⟨component.lead.pieceKind, component.text⟩

/-- Whether a statement ends with this component: it is a semicolon or a block in curly
brackets. -/
def endsStatement : Component → Bool
  | single lexeme => lexeme.token == .delimiter ';'
  | block opener _ _ => opener.token == .opening .curly

@[simp] theorem textOfAll_nil : textOfAll [] = [] := rfl

@[simp] theorem textOfAll_append (components more : List Component) :
    textOfAll (components ++ more) = textOfAll components ++ textOfAll more := by
  induction components with
  | nil => rfl
  | cons component components ih =>
    rw [List.cons_append, textOfAll, textOfAll, ih, List.append_assoc]

@[simp] theorem textOfAll_singleton (component : Component) :
    textOfAll [component] = component.text :=
  List.append_nil _

end Component

/-- A block that is open, and the components before it, latest first. -/
structure OpenGroup where
  opener : Lexeme
  earlier : List Component

/-- The bracket that an open block waits for. -/
def OpenGroup.bracket? (group : OpenGroup) : Option Bracket :=
  group.opener.token.opened?

/-- A grouping on its way: the components of the innermost block, latest first, and the
open blocks from the inside out. -/
structure Grouping where
  current : List Component
  enclosing : List OpenGroup

namespace Grouping

/-- Takes the next token in. -/
def step (g : Grouping) (lexeme : Lexeme) : Grouping :=
  match lexeme.token.opened?, lexeme.token.closed?, g.enclosing with
  | some _, _, _ => ⟨[], ⟨lexeme, g.current⟩ :: g.enclosing⟩
  | none, some bracket, group :: outer =>
    if group.bracket? = some bracket then
      ⟨.block group.opener g.current.reverse (some lexeme) :: group.earlier, outer⟩
    else ⟨.single lexeme :: g.current, g.enclosing⟩
  | none, _, _ => ⟨.single lexeme :: g.current, g.enclosing⟩

/-- The components when the end of the text closes the blocks of `enclosing`. -/
def closeGroups : List OpenGroup → List Component → List Component
  | [], current => current.reverse
  | group :: outer, current =>
    closeGroups outer (.block group.opener current.reverse none :: group.earlier)

/-- The components when the tokens of a text are all that is to come. -/
def complete (g : Grouping) (text : List Char) : List Component :=
  let g' := (Lexeme.all text).foldl step g
  closeGroups g'.enclosing g'.current

end Grouping

/-- The tokens of a text in nested blocks. -/
def Component.ofText (text : List Char) : List Component :=
  (⟨[], []⟩ : Grouping).complete text

namespace Lexeme

@[simp] theorem all_nil : all [] = [] := by
  unfold all
  simp [Token.scan?]

theorem all_of_scan? {text : List Char} {t : Scan Token} (h : Token.scan? text = some t) :
    all text = ⟨t.value, t.lexeme⟩ :: all t.rest := by
  rw [all]
  split
  · simp_all
  · simp_all

theorem all_eq_nil_iff {text : List Char} : all text = [] ↔ text = [] := by
  cases ht : Token.scan? text with
  | none => simp [Token.scan?_eq_none_iff.mp ht]
  | some t =>
    have hne : text ≠ [] := fun hnil => by simp [hnil, Token.scan?] at ht
    simp [all_of_scan? ht, hne]

theorem getLast?_all_of_scan? {text : List Char} {t : Scan Token}
    (ht : Token.scan? text = some t) :
    (all text).getLast? =
      if t.rest = [] then some ⟨t.value, t.lexeme⟩ else (all t.rest).getLast? := by
  rw [all_of_scan? ht]
  split
  · rename_i hrest
    rw [hrest, all_nil]
    rfl
  · rename_i hrest
    obtain ⟨lexeme, lexemes, heq⟩ := List.exists_cons_of_ne_nil (mt all_eq_nil_iff.mp hrest)
    rw [heq, List.getLast?_cons_cons]

theorem exists_getLast?_all {text : List Char} (hne : text ≠ []) :
    ∃ last, (all text).getLast? = some last :=
  ⟨_, List.getLast?_eq_some_getLast (mt all_eq_nil_iff.mp hne)⟩

/-- The last token stands at the end of the text. -/
theorem suffix_of_getLast?_all {text : List Char} {last : Lexeme}
    (h : (all text).getLast? = some last) : last.text <:+ text := by
  fun_induction all text with
  | case1 => simp at h
  | case2 text t ht ih =>
    rw [← all_of_scan? ht, getLast?_all_of_scan? ht] at h
    have hsplits := Token.splits_of_scan?_eq_some ht
    split at h
    · rename_i hrest
      obtain rfl := Option.some.inj h
      rw [Scan.Splits, hrest, List.append_nil] at hsplits
      exact hsplits ▸ List.suffix_rfl
    · exact (ih h).trans ⟨_, hsplits⟩

/-- A text that is a single token is this token. -/
theorem scan?_of_all {text : List Char} {token : Token}
    (h : (all text).map Lexeme.token = [token]) :
    Token.scan? text = some ⟨text, token, []⟩ := by
  cases ht : Token.scan? text with
  | none => simp [Token.scan?_eq_none_iff.mp ht] at h
  | some t =>
    rw [all_of_scan? ht, List.map_cons, List.cons.injEq, List.map_eq_nil_iff] at h
    have hrest : t.rest = [] := all_eq_nil_iff.mp h.2
    have hsplits := Token.splits_of_scan?_eq_some ht
    rw [Scan.Splits, hrest, List.append_nil] at hsplits
    obtain ⟨lexeme, value, rest⟩ := t
    obtain rfl : rest = [] := hrest
    obtain rfl : lexeme = text := hsplits
    obtain rfl : value = token := h.1
    rfl

end Lexeme

namespace Grouping

@[simp] theorem complete_nil (g : Grouping) :
    g.complete [] = closeGroups g.enclosing g.current := by
  simp [complete]

theorem complete_of_scan? {text : List Char} {t : Scan Token} (h : Token.scan? text = some t)
    (g : Grouping) : g.complete text = (g.step ⟨t.value, t.lexeme⟩).complete t.rest := by
  simp [complete, Lexeme.all_of_scan? h]

variable {current : List Component} {enclosing : List OpenGroup} {lexeme : Lexeme}

theorem step_of_opened {bracket : Bracket} (h : lexeme.token.opened? = some bracket) :
    step ⟨current, enclosing⟩ lexeme = ⟨[], ⟨lexeme, current⟩ :: enclosing⟩ := by
  unfold step
  rw [h]

/-- A closing bracket that matches ends the innermost block. -/
theorem step_of_closed {bracket : Bracket} {group : OpenGroup} {outer : List OpenGroup}
    (hopened : lexeme.token.opened? = none) (h : lexeme.token.closed? = some bracket)
    (hgroup : group.bracket? = some bracket) :
    step ⟨current, group :: outer⟩ lexeme =
      ⟨.block group.opener current.reverse (some lexeme) :: group.earlier, outer⟩ := by
  unfold step
  rw [hopened, h]
  exact if_pos hgroup

/-- Any other token is a component of the innermost block. -/
theorem step_of_single (hopened : lexeme.token.opened? = none)
    (h : ∀ group ∈ enclosing.head?, ∀ bracket, lexeme.token.closed? = some bracket →
      group.bracket? ≠ some bracket) :
    step ⟨current, enclosing⟩ lexeme = ⟨.single lexeme :: current, enclosing⟩ := by
  unfold step
  rw [hopened]
  cases hclosed : lexeme.token.closed? with
  | none => rfl
  | some bracket =>
    cases enclosing with
    | nil => rfl
    | cons group outer => exact if_neg (h group rfl bracket hclosed)

/-- The text that the open blocks start with. -/
def textOfGroups : List OpenGroup → List Char
  | [] => []
  | group :: outer =>
    textOfGroups outer ++ (Component.textOfAll group.earlier.reverse ++ group.opener.text)

/-- The text of all tokens so far. -/
def text (g : Grouping) : List Char :=
  textOfGroups g.enclosing ++ Component.textOfAll g.current.reverse

@[simp] theorem text_step (g : Grouping) (lexeme : Lexeme) :
    (g.step lexeme).text = g.text ++ lexeme.text := by
  unfold step
  split
  · simp [text, textOfGroups]
  · rename_i hgroup
    split
    · simp [text, textOfGroups, hgroup, Component.text]
    · simp [text, Component.text]
  · simp [text, Component.text]

/-- Of the blocks of `groups` the outermost one was opened with `opener`, behind the
components of `before`; or it is closed. -/
def Within (opener : Lexeme) (before current : List Component) (groups : List OpenGroup) : Prop :=
  match groups.getLast? with
  | some group => group = ⟨opener, before⟩
  | none => ∃ inside closer, current = .block opener inside closer :: before

theorem Within.pop {opener : Lexeme} {before : List Component} {group : OpenGroup}
    {groups : List OpenGroup} (h : Within opener before current (group :: groups))
    (closer : Option Lexeme) :
    Within opener before (.block group.opener current.reverse closer :: group.earlier) groups := by
  cases groups with
  | nil =>
    obtain rfl : group = ⟨opener, before⟩ := h
    exact ⟨_, _, rfl⟩
  | cons next groups =>
    unfold Within at h ⊢
    rwa [List.getLast?_cons_cons] at h

theorem Within.push {opener : Lexeme} {before : List Component} {groups : List OpenGroup}
    (h : Within opener before current groups) (hne : groups ≠ []) (group : OpenGroup)
    (current' : List Component) : Within opener before current' (group :: groups) := by
  obtain ⟨next, groups, rfl⟩ := List.exists_cons_of_ne_nil hne
  unfold Within at h ⊢
  rwa [List.getLast?_cons_cons]

theorem Within.add {opener : Lexeme} {before : List Component} {groups : List OpenGroup}
    (h : Within opener before current groups) (hne : groups ≠ []) (current' : List Component) :
    Within opener before current' groups := by
  obtain ⟨next, groups, rfl⟩ := List.exists_cons_of_ne_nil hne
  unfold Within at h ⊢
  rwa [List.getLast?_cons] at h ⊢

/-- The end of the text closes the blocks up to the outermost one. -/
theorem exists_closed (enclosing : List OpenGroup) {opener : Lexeme} {before : List Component} {groups : List OpenGroup} :
    ∀ {current : List Component}, Within opener before current groups →
      ∃ inside closer,
        closeGroups (groups ++ enclosing) current =
          closeGroups enclosing (.block opener inside closer :: before) ∧
        (⟨.block opener inside closer :: before, enclosing⟩ : Grouping).text =
          (⟨current, groups ++ enclosing⟩ : Grouping).text := by
  induction groups with
  | nil =>
    rintro current ⟨inside, closer, rfl⟩
    exact ⟨inside, closer, rfl, rfl⟩
  | cons group groups ih =>
    intro current h
    obtain ⟨inside, closer, hclose, htext⟩ := ih (h.pop none)
    refine ⟨inside, closer, hclose, ?_⟩
    rw [htext]
    simp [text, textOfGroups, Component.text]

/-- Inside open blocks the brackets are counted as the brackets of a prelude are. -/
theorem exists_step (enclosing : List OpenGroup) {opener : Lexeme} {before : List Component} {group : OpenGroup}
    {outer : List OpenGroup} {bracket : Bracket} {brackets : List Bracket}
    (h : Within opener before current (group :: outer))
    (hbrackets : (group :: outer).map OpenGroup.bracket? = (bracket :: brackets).map some)
    (lexeme : Lexeme) :
    ∃ current' groups,
      step ⟨current, group :: outer ++ enclosing⟩ lexeme = ⟨current', groups ++ enclosing⟩ ∧
      Within opener before current' groups ∧
      groups.map OpenGroup.bracket? = (lexeme.token.nest (bracket :: brackets)).map some := by
  obtain ⟨hbracket, houter⟩ := List.cons.inj hbrackets
  unfold Token.nest
  cases hopened : lexeme.token.opened? with
  | some opened =>
    exact ⟨[], ⟨lexeme, current⟩ :: group :: outer, step_of_opened hopened,
      h.push (List.cons_ne_nil _ _) _ _, List.cons_eq_cons.mpr ⟨hopened, hbrackets⟩⟩
  | none =>
    cases hclosed : lexeme.token.closed? with
    | none =>
      exact ⟨_, group :: outer, step_of_single hopened (by simp [hclosed]),
        h.add (List.cons_ne_nil _ _) _, hbrackets⟩
    | some closed =>
      by_cases hmatch : closed = bracket
      · refine ⟨_, outer, step_of_closed hopened hclosed (by rw [hbracket, hmatch]), h.pop _, ?_⟩
        simpa only [if_pos hmatch] using houter
      · refine ⟨_, group :: outer, step_of_single hopened ?_, h.add (List.cons_ne_nil _ _) _, ?_⟩
        · rintro _ ⟨⟩ other hother heq
          rw [hbracket] at heq
          exact hmatch ((Option.some.inj (hclosed.symm.trans hother)).trans
            (Option.some.inj heq).symm)
        · simpa only [if_neg hmatch] using hbrackets

/-- Reading to the end of the open brackets makes one block of them. -/
theorem exists_block (enclosing : List OpenGroup) (brackets : List Bracket) (rest : List Char) :
    ∀ (opener : Lexeme) (before current : List Component) (groups : List OpenGroup),
      Within opener before current groups → groups.map OpenGroup.bracket? = brackets.map some →
      ∃ inside closer,
        (⟨current, groups ++ enclosing⟩ : Grouping).complete rest =
          (⟨.block opener inside closer :: before, enclosing⟩ : Grouping).complete
            (scanBrackets brackets rest).rest ∧
        (⟨.block opener inside closer :: before, enclosing⟩ : Grouping).text =
          (⟨current, groups ++ enclosing⟩ : Grouping).text ++
            (scanBrackets brackets rest).lexeme := by
  fun_induction scanBrackets brackets rest with
  | case1 brackets rest hempty =>
    intro opener before current groups h hbrackets
    obtain rfl : groups = [] := by
      rw [List.isEmpty_iff.mp hempty] at hbrackets
      exact List.map_eq_nil_iff.mp hbrackets
    obtain ⟨inside, closer, rfl⟩ := h
    exact ⟨inside, closer, rfl, (List.append_nil _).symm⟩
  | case2 brackets rest hempty hnone =>
    intro opener before current groups h hbrackets
    obtain ⟨inside, closer, hclose, htext⟩ := exists_closed enclosing h
    obtain rfl := Token.scan?_eq_none_iff.mp hnone
    exact ⟨inside, closer, by rw [complete_nil, complete_nil, hclose], by simp [htext]⟩
  | case3 brackets rest hempty t ht ih =>
    intro opener before current groups h hbrackets
    obtain ⟨bracket, others, rfl⟩ := List.exists_cons_of_ne_nil (by simpa using hempty)
    obtain ⟨group, outer, rfl⟩ : ∃ group outer, groups = group :: outer := by
      refine List.exists_cons_of_ne_nil ?_
      rintro rfl
      simp at hbrackets
    obtain ⟨current', groups, hstep, hwithin, hnest⟩ :=
      exists_step enclosing h hbrackets ⟨t.value, t.lexeme⟩
    obtain ⟨inside, closer, hcomplete, htext⟩ := ih opener before current' groups hwithin hnest
    refine ⟨inside, closer, ?_, ?_⟩
    · rw [complete_of_scan? ht, hstep, hcomplete]
      rfl
    · rw [htext, ← hstep, text_step, List.append_assoc]
      rfl

/-- The innermost block of a grouping is the one that a prelude stands in: a block in curly
brackets, or none. -/
structure Around (inBlock : Bool) (enclosing : List OpenGroup) : Prop where
  inBlock_eq : inBlock = !enclosing.isEmpty
  opener_eq : ∀ group ∈ enclosing.head?, group.opener.token = .opening .curly

/-- A token of a prelude that opens no block is a component. -/
theorem Around.step_eq {inBlock : Bool} (h : Around inBlock enclosing) {rest : List Char}
    {t : Scan Token} (ht : Token.scan? rest = some t)
    (hends : Prelude.endsBefore inBlock rest = false) (hopened : t.value.opened? = none)
    (current : List Component) :
    step ⟨current, enclosing⟩ ⟨t.value, t.lexeme⟩ =
      ⟨.single ⟨t.value, t.lexeme⟩ :: current, enclosing⟩ := by
  refine step_of_single hopened fun group hgroup bracket hclosed hbracket => ?_
  rw [OpenGroup.bracket?, h.opener_eq group hgroup] at hbracket
  obtain rfl : Bracket.curly = bracket := Option.some.inj hbracket
  have hvalue : t.value = Token.ofChar '}' := by
    cases hv : t.value <;> simp_all [Token.closed?, Token.ofChar]
  have hlexeme := Token.lexeme_of_isHard (.inr (.inr rfl)) ht hvalue
  have hsplits := Token.splits_of_scan?_eq_some ht
  rw [Scan.Splits, hlexeme] at hsplits
  have hin : inBlock = true := by
    rw [h.inBlock_eq]
    cases enclosing with
    | nil => simp at hgroup
    | cons _ _ => rfl
  simp [← hsplits, Prelude.endsBefore, hin] at hends

/-- A prelude that does not end at once starts with neither a semicolon nor a curly bracket
that opens. -/
theorem value_ne_of_not_endsBefore {inBlock : Bool} {rest : List Char} {t : Scan Token}
    (ht : Token.scan? rest = some t) (hends : Prelude.endsBefore inBlock rest = false) :
    t.value ≠ .delimiter ';' ∧ t.value ≠ .opening .curly := by
  have hsplits := Token.splits_of_scan?_eq_some ht
  constructor <;> intro hv
  · have hlexeme := Token.lexeme_of_isHard (d := ';') (.inl rfl) ht hv
    rw [Scan.Splits, hlexeme] at hsplits
    simp [← hsplits, Prelude.endsBefore] at hends
  · have hlexeme := Token.lexeme_of_isHard (d := '{') (.inr (.inl rfl)) ht hv
    rw [Scan.Splits, hlexeme] at hsplits
    simp [← hsplits, Prelude.endsBefore] at hends

/-- A token of a prelude with the brackets that it opens is a component. -/
theorem Around.exists_component {inBlock : Bool} (h : Around inBlock enclosing) {rest : List Char}
    {t : Scan Token} (ht : Token.scan? rest = some t)
    (hends : Prelude.endsBefore inBlock rest = false) (current : List Component) :
    let inside := scanBrackets t.value.opened?.toList t.rest
    ∃ component : Component,
      (⟨current, enclosing⟩ : Grouping).complete rest =
        (⟨component :: current, enclosing⟩ : Grouping).complete inside.rest ∧
      component.lead = t.value ∧ component.text = t.lexeme ++ inside.lexeme ∧
      component.endsStatement = false := by
  obtain ⟨hsemicolon, hcurly⟩ := value_ne_of_not_endsBefore ht hends
  rw [complete_of_scan? ht]
  cases hopened : t.value.opened? with
  | none =>
    have hnone : scanBrackets (none : Option Bracket).toList t.rest = ⟨[], (), t.rest⟩ := by
      unfold scanBrackets
      rfl
    rw [hnone]
    refine ⟨.single ⟨t.value, t.lexeme⟩, ?_, rfl, (List.append_nil _).symm, ?_⟩
    · rw [h.step_eq ht hends hopened]
    · simpa [Component.endsStatement] using hsemicolon
  | some bracket =>
    rw [step_of_opened hopened]
    obtain ⟨inside, closer, hcomplete, htext⟩ := exists_block enclosing [bracket] t.rest
      ⟨t.value, t.lexeme⟩ current [] [⟨⟨t.value, t.lexeme⟩, current⟩] rfl
      (by simp [OpenGroup.bracket?, hopened])
    refine ⟨_, hcomplete, rfl, ?_, by simpa [Component.endsStatement] using hcurly⟩
    simpa [text, textOfGroups] using htext

/-- The pieces of a prelude are components of the block around it, of which none ends a
statement. -/
theorem exists_prelude {inBlock : Bool} (h : Around inBlock enclosing) (rest : List Char) :
    ∀ current, ∃ components : List Component,
      (⟨current, enclosing⟩ : Grouping).complete rest =
        (⟨components.reverse ++ current, enclosing⟩ : Grouping).complete
          (Prelude.scan inBlock rest).rest ∧
      components.map Component.piece = (Prelude.scan inBlock rest).value ∧
      (∀ component ∈ components, component.endsStatement = false) ∧
      (Prelude.endsBefore inBlock rest = false →
        components.head?.map Component.lead = (Token.scan? rest).map Scan.value) := by
  fun_induction Prelude.scan inBlock rest with
  | case1 rest hends =>
    intro current
    exact ⟨[], rfl, rfl, by simp, by simp [hends]⟩
  | case2 rest hends hnone =>
    intro current
    exact ⟨[], rfl, rfl, by simp, by simp [hnone]⟩
  | case3 rest hends t ht inside ih =>
    intro current
    obtain ⟨component, hcomplete, hlead, htext, hend⟩ :=
      h.exists_component ht (by simpa using hends) current
    obtain ⟨components, hrest, hpieces, hends', -⟩ := ih (component :: current)
    refine ⟨component :: components, ?_, ?_, ?_, ?_⟩
    · rw [hcomplete, hrest]
      simp
    · rw [List.map_cons, hpieces, Component.piece, hlead, htext]
      rfl
    · rintro other hmem
      rcases List.mem_cons.mp hmem with rfl | hmem
      · exact hend
      · exact hends' other hmem
    · simp [ht, hlead]

end Grouping

end Typography
