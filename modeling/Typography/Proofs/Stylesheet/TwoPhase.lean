import Typography.Proofs.Stylesheet.Grouping
import Typography.Proofs.Stylesheet.Met
import Typography.Proofs.Text.Trim

/-!
# Reading in two phases

Another way to read a stylesheet: first all of its tokens are grouped into nested blocks,
and then the components of the text, and of each block of a statement, are cut into
statements. The reader goes through the text once and never sees a block as a whole;
nevertheless it comes to the same trees, `Reading.bareAll_ofText`.
-/

namespace Typography

namespace Component

/-- Whitespace. -/
def isSpace (component : Component) : Bool :=
  component.lead.pieceKind == .space

/-- A comment. -/
def isComment (component : Component) : Bool :=
  component.lead.pieceKind == .comment

/-- The components, behind `previous`, without the comments that whitespace or an end
borders. -/
def withoutLoose (previous : Option Component) : List Component → List Component
  | [] => []
  | component :: rest =>
    if component.isComment && (previous.all isSpace || rest.head?.all isSpace) then
      withoutLoose (some component) rest
    else component :: withoutLoose (some component) rest

/-- The text that is kept of components. -/
def kept (components : List Component) : List Char :=
  textOfAll (withoutLoose none components)

/-- A declaration, if the text has a colon behind something that is not blank. -/
def declaration? (text : List Char) : Option NodeKind :=
  let property := text.takeWhile (· != ':')
  if ':' ∈ text ∧ property.any (!Text.isBlank ·) then
    let (value, important) := splitImportant (text.dropWhile (· != ':')).tail
    some (.declaration (String.ofList (Text.trim property)) (String.ofList value) important)
  else none

/-- The node of a statement that ends with a block in curly brackets. -/
def withBlock : List Component → NodeKind
  | .single ⟨.atKeyword name, _⟩ :: rest =>
    .atRule (String.ofList name) (String.ofList (Text.trim (kept rest))) true
  | statement => .rule (String.ofList (Text.trim (kept statement)))

/-- The node of any other statement, if there is one. -/
def withoutBlock? : List Component → Option NodeKind
  | .single ⟨.atKeyword name, _⟩ :: rest =>
    some (.atRule (String.ofList name) (String.ofList (Text.trim (kept rest))) false)
  | statement => declaration? (kept statement)

/-- The tree of a statement without a block, if there is one. -/
def leaves (statement : List Component) : List Tree :=
  ((withoutBlock? statement).map fun kind => .node kind none []).toList

/-- The trees of components, when those of `statement` are the first of a statement. A
statement ends with a semicolon, with a block in curly brackets, or with the list. -/
def readFrom : List Component → List Component → List Tree
  | statement, [] => leaves statement
  | statement, .block opener inside closer :: rest =>
    if opener.token = .opening .curly then
      .node (withBlock statement) none (readFrom [] inside) :: readFrom [] rest
    else readFrom (statement ++ [.block opener inside closer]) rest
  | statement, .single lexeme :: rest =>
    if lexeme.token = .delimiter ';' then leaves statement ++ readFrom [] rest
    else if statement.isEmpty then
      match lexeme.token with
      | .space => readFrom [] rest
      | .comment body => .node (.comment (String.ofList body)) none [] :: readFrom [] rest
      | _ => readFrom [.single lexeme] rest
    else readFrom (statement ++ [.single lexeme]) rest
termination_by _ components => sizeOf components
decreasing_by
  all_goals
    simp only [List.cons.sizeOf_spec, block.sizeOf_spec]
    omega

/-- The trees of the components of a text or of a block. -/
def readAll (components : List Component) : List Tree :=
  readFrom [] components

theorem textOfAll_withoutLoose (components : List Component) :
    ∀ previous, textOfAll (withoutLoose previous components) =
      Prelude.keptFrom (previous.map piece) (components.map piece) := by
  induction components with
  | nil => exact fun _ => rfl
  | cons component rest ih =>
    intro previous
    have hprevious : previous.all isSpace = Prelude.loosens (previous.map piece) := by
      cases previous <;> rfl
    have hnext : rest.head?.all isSpace = Prelude.loosens (rest.map piece).head? := by
      cases rest <;> rfl
    have hcomment : component.isComment = (component.piece.kind == .comment) := rfl
    rw [withoutLoose, List.map_cons, Prelude.keptFrom, hcomment, hprevious, hnext]
    split
    · exact ih (some component)
    · rw [textOfAll, ih]
      rfl

/-- The text that is kept of components is that of their pieces. -/
theorem kept_eq (components : List Component) :
    kept components = Prelude.kept (components.map piece) :=
  textOfAll_withoutLoose components none

theorem declaration?_eq (text : List Char) :
    declaration? text = (readDeclaration text).toOption := by
  have hblank : (Text.trim (text.takeWhile (· != ':'))).isEmpty ↔
      ¬(text.takeWhile (· != ':')).any (!Text.isBlank ·) := by
    rw [List.isEmpty_iff, Text.trim_eq_nil_iff]
    simp
  unfold readDeclaration declaration?
  cases hbehind : text.dropWhile (· != ':') with
  | nil =>
    have hcolon : ':' ∉ text := fun hmem => by
      simpa using List.dropWhile_eq_nil_iff.mp hbehind ':' hmem
    exact if_neg fun h => hcolon h.1
  | cons colon value =>
    have hcolon : ':' ∈ text := by
      have hfirst := List.head?_dropWhile_not (· != ':') text
      obtain rfl : colon = ':' := by simpa [hbehind] using hfirst
      exact (List.dropWhile_suffix (· != ':')).subset (by simp [hbehind])
    dsimp only
    by_cases hproperty : (text.takeWhile (· != ':')).any (!Text.isBlank ·)
    · rw [if_pos ⟨hcolon, hproperty⟩, if_neg (hblank.not.mpr (not_not.mpr hproperty))]
      rfl
    · rw [if_neg fun h => hproperty h.2, if_pos (hblank.mpr hproperty)]
      rfl

@[simp] theorem leaves_nil : leaves [] = [] := rfl

@[simp] theorem readFrom_nil (statement : List Component) :
    readFrom statement [] = leaves statement := by
  rw [readFrom]

theorem readFrom_block {opener : Lexeme} (h : opener.token = .opening .curly)
    (statement inside rest : List Component) (closer : Option Lexeme) :
    readFrom statement (.block opener inside closer :: rest) =
      .node (withBlock statement) none (readAll inside) :: readAll rest := by
  rw [readFrom, if_pos h]
  rfl

theorem readFrom_semicolon {lexeme : Lexeme} (h : lexeme.token = .delimiter ';')
    (statement rest : List Component) :
    readFrom statement (.single lexeme :: rest) = leaves statement ++ readAll rest := by
  rw [readFrom, if_pos h]
  rfl

theorem readAll_space {lexeme : Lexeme} (h : lexeme.token = .space) (rest : List Component) :
    readAll (.single lexeme :: rest) = readAll rest := by
  rw [readAll, readFrom, if_neg (by simp [h]), if_pos List.isEmpty_nil, h]
  rfl

theorem readAll_comment {lexeme : Lexeme} {body : List Char} (h : lexeme.token = .comment body)
    (rest : List Component) :
    readAll (.single lexeme :: rest) =
      .node (.comment (String.ofList body)) none [] :: readAll rest := by
  rw [readAll, readFrom, if_neg (by simp [h]), if_pos List.isEmpty_nil, h]
  rfl

/-- Whether a component that stands first starts a statement. -/
def starts (component : Component) : Prop :=
  component.isSpace = false ∧ component.isComment = false

theorem readFrom_cons {statement : List Component} {component : Component}
    (hends : component.endsStatement = false) (h : statement ≠ [] ∨ component.starts)
    (rest : List Component) :
    readFrom statement (component :: rest) = readFrom (statement ++ [component]) rest := by
  cases component with
  | block opener inside closer =>
    rw [readFrom, if_neg (by simpa [endsStatement] using hends)]
  | single lexeme =>
    rw [readFrom, if_neg (by simpa [endsStatement] using hends)]
    cases statement with
    | cons first others => rfl
    | nil =>
      obtain ⟨hspace, hcomment⟩ := h.resolve_left fun hne => hne rfl
      rw [if_pos List.isEmpty_nil, List.nil_append]
      cases htoken : lexeme.token <;>
        simp_all [isSpace, isComment, lead, Token.pieceKind]

/-- Components that end no statement go on with it. -/
theorem readFrom_append {components : List Component}
    (hends : ∀ component ∈ components, component.endsStatement = false) :
    ∀ {statement : List Component},
      (statement ≠ [] ∨ ∀ component ∈ components.head?, component.starts) →
      ∀ rest, readFrom statement (components ++ rest) = readFrom (statement ++ components) rest := by
  induction components with
  | nil => simp
  | cons component components ih =>
    intro statement h rest
    rw [List.cons_append, readFrom_cons (hends component List.mem_cons_self)
      (h.imp_right fun hstarts => hstarts component rfl), ih
      (fun other hmem => hends other (List.mem_cons_of_mem _ hmem)) (.inl (by simp)),
      List.append_assoc, List.singleton_append]

@[simp] theorem readAll_nil : readAll [] = [] :=
  readFrom_nil []

/-- These components are the first ones of a statement. -/
def IsHead (statement : List Component) : Prop :=
  ∀ rest, readAll (statement ++ rest) = readFrom statement rest

theorem isHead_nil : IsHead [] := fun _ => rfl

theorem isHead_of_starts {components : List Component}
    (hends : ∀ component ∈ components, component.endsStatement = false)
    (hstarts : ∀ component ∈ components.head?, component.starts) : IsHead components :=
  readFrom_append hends (.inr hstarts)

theorem IsHead.readAll_eq {statement : List Component} (h : IsHead statement) :
    readAll statement = leaves statement := by
  simpa using h []

/-- What stands behind these components is read as at the start. -/
def IsWhole (components : List Component) : Prop :=
  ∀ rest, readAll (components ++ rest) = readAll components ++ readAll rest

theorem isWhole_nil : IsWhole [] := by
  simp [IsWhole]

theorem IsWhole.append {components more : List Component} (h : IsWhole components)
    (h' : IsWhole more) : IsWhole (components ++ more) := by
  intro rest
  rw [List.append_assoc, h, h', h, List.append_assoc]

theorem isWhole_of_eq {components : List Component} {trees : List Tree}
    (h : ∀ rest, readAll (components ++ rest) = trees ++ readAll rest) :
    IsWhole components ∧ readAll components = trees := by
  have heq : readAll components = trees := by simpa using h []
  exact ⟨fun rest => by rw [heq, h], heq⟩

theorem isWhole_space {lexeme : Lexeme} (h : lexeme.token = .space) :
    IsWhole [.single lexeme] ∧ readAll [.single lexeme] = [] :=
  isWhole_of_eq fun rest => readAll_space h rest

theorem isWhole_comment {lexeme : Lexeme} {body : List Char} (h : lexeme.token = .comment body) :
    IsWhole [.single lexeme] ∧
      readAll [.single lexeme] = [.node (.comment (String.ofList body)) none []] :=
  isWhole_of_eq fun rest => readAll_comment h rest

theorem IsHead.isWhole_semicolon {statement : List Component} (h : IsHead statement)
    (lexeme : Lexeme) (hlexeme : lexeme.token = .delimiter ';') :
    IsWhole (statement ++ [.single lexeme]) ∧
      readAll (statement ++ [.single lexeme]) = leaves statement :=
  isWhole_of_eq fun rest => by
    rw [List.append_assoc, List.singleton_append, h, readFrom_semicolon hlexeme]

theorem IsHead.isWhole_block {statement : List Component} (h : IsHead statement)
    {opener : Lexeme} (hopener : opener.token = .opening .curly) (inside : List Component)
    (closer : Option Lexeme) :
    IsWhole (statement ++ [.block opener inside closer]) ∧
      readAll (statement ++ [.block opener inside closer]) =
        [.node (withBlock statement) none (readAll inside)] :=
  isWhole_of_eq fun rest => by
    rw [List.append_assoc, List.singleton_append, h, readFrom_block hopener]
    rfl

theorem ne_root_of_withoutBlock? {statement : List Component} {kind : NodeKind}
    (h : withoutBlock? statement = some kind) : kind ≠ .root ∧ kind.hasBlock = false := by
  unfold withoutBlock? at h
  split at h
  · rw [← Option.some.inj h]
    exact ⟨by simp, rfl⟩
  · rw [declaration?_eq] at h
    obtain ⟨property, value, important, rfl⟩ := Reader.ok_of_readDeclaration (ok_of_toOption h)
    exact ⟨by simp, rfl⟩

theorem orderly_of_mem_leaves {statement : List Component} :
    ∀ tree ∈ leaves statement, tree.Orderly := by
  intro tree htree
  obtain ⟨kind, hkind, rfl⟩ := Option.map_eq_some_iff.mp (Option.mem_toList.mp htree)
  exact ⟨(ne_root_of_withoutBlock? hkind).1, by simp, trivial⟩

theorem marksOfAll_leaves (statement : List Component) :
    Tree.marksOfAll (leaves statement) = ((withoutBlock? statement).map Mark.leaf).toList := by
  unfold leaves
  cases hkind : withoutBlock? statement with
  | none => rfl
  | some kind => simp [Tree.marks_of_not_hasBlock (ne_root_of_withoutBlock? hkind).2]

theorem withBlock_ne_root (statement : List Component) :
    withBlock statement ≠ .root ∧ (withBlock statement).hasBlock := by
  unfold withBlock
  split <;> exact ⟨by simp, rfl⟩

/-- Only statements with a block have children. -/
theorem allOrderly_readFrom (statement components : List Component) :
    Tree.AllOrderly (readFrom statement components) := by
  have hleaves : ∀ statement {trees}, Tree.AllOrderly trees →
      Tree.AllOrderly (leaves statement ++ trees) := by
    intro statement trees htrees
    rw [Tree.allOrderly_iff] at htrees ⊢
    intro tree hmem
    rcases List.mem_append.mp hmem with hmem | hmem
    · exact orderly_of_mem_leaves tree hmem
    · exact htrees tree hmem
  fun_induction readFrom statement components with
  | case1 statement => exact Tree.allOrderly_iff.mpr orderly_of_mem_leaves
  | case2 statement opener inside closer rest hopener ihinside ihrest =>
    exact ⟨⟨(withBlock_ne_root statement).1, fun _ => (withBlock_ne_root statement).2, ihinside⟩,
      ihrest⟩
  | case3 statement opener inside closer rest hopener ih => exact ih
  | case4 statement lexeme rest hsemicolon ih => exact hleaves statement ih
  | case5 statement lexeme rest hsemicolon hempty hspace ih => exact ih
  | case6 statement lexeme rest hsemicolon hempty body hcomment ih =>
    exact ⟨⟨by simp, by simp, trivial⟩, ih⟩
  | case7 statement lexeme rest hsemicolon hempty hspace hcomment ih => exact ih
  | case8 statement lexeme rest hsemicolon hempty ih => exact ih

theorem bareAll_append (trees more : List Tree) :
    Tree.bareAll (trees ++ more) = Tree.bareAll trees ++ Tree.bareAll more := by
  rw [Tree.bareAll_eq_map, List.map_append, ← Tree.bareAll_eq_map, ← Tree.bareAll_eq_map]

/-- The trees have no spans. -/
theorem bareAll_readFrom (statement components : List Component) :
    Tree.bareAll (readFrom statement components) = readFrom statement components := by
  have hleaves : ∀ statement, Tree.bareAll (leaves statement) = leaves statement := by
    intro statement
    unfold leaves
    cases withoutBlock? statement <;> rfl
  fun_induction readFrom statement components with
  | case1 statement => exact hleaves statement
  | case2 statement opener inside closer rest hopener ihinside ihrest =>
    rw [Tree.bareAll_cons, Tree.bare, ihinside, ihrest]
  | case3 statement opener inside closer rest hopener ih => exact ih
  | case4 statement lexeme rest hsemicolon ih => rw [bareAll_append, hleaves, ih]
  | case5 statement lexeme rest hsemicolon hempty hspace ih => exact ih
  | case6 statement lexeme rest hsemicolon hempty body hcomment ih =>
    rw [Tree.bareAll_cons, Tree.bare, Tree.bareAll_nil, ih]
  | case7 statement lexeme rest hsemicolon hempty hspace hcomment ih => exact ih
  | case8 statement lexeme rest hsemicolon hempty ih => exact ih

/-- A statement that starts with a keyword is an at-rule. -/
theorem withBlock_of_atKeyword (lexeme : Lexeme) {name : List Char}
    (h : lexeme.token = .atKeyword name) (rest : List Component) :
    withBlock (.single lexeme :: rest) =
        .atRule (String.ofList name) (String.ofList (Text.trim (kept rest))) true ∧
      withoutBlock? (.single lexeme :: rest) =
        some (.atRule (String.ofList name) (String.ofList (Text.trim (kept rest))) false) := by
  obtain ⟨token, text⟩ := lexeme
  obtain rfl : token = .atKeyword name := h
  exact ⟨rfl, rfl⟩

/-- A statement that starts with no keyword is a rule or a declaration. -/
theorem withBlock_of_ne {statement : List Component}
    (h : ∀ component ∈ statement.head?, ∀ name, component.lead ≠ .atKeyword name) :
    withBlock statement = .rule (String.ofList (Text.trim (kept statement))) ∧
      withoutBlock? statement = declaration? (kept statement) := by
  unfold withBlock withoutBlock?
  split
  · exact absurd rfl (h _ rfl _)
  · exact ⟨rfl, rfl⟩

end Component

namespace Grouping

open Component

/-- The blocks of `enclosing` are those of statements, which are open where the marks have
been met. -/
inductive Opened : List OpenGroup → List Mark → Prop
  | nil : Opened [] []
  | cons {outer : List OpenGroup} {marks : List Mark} {opener : Lexeme}
      {before statement : List Component} :
      Opened outer marks → opener.token = .opening .curly → IsWhole before → IsHead statement →
      Opened (⟨opener, (before ++ statement).reverse⟩ :: outer)
        (marks ++ (Tree.marksOfAll (readAll before) ++ [.opening (withBlock statement)]))

variable {enclosing : List OpenGroup} {marks : List Mark} {current : List Component}

theorem Opened.around (h : Opened enclosing marks) : Around (0 < enclosing.length) enclosing := by
  cases h with
  | nil => exact ⟨rfl, by simp⟩
  | cons _ hopener _ _ => exact ⟨by simp, by simpa using hopener⟩

/-- A statement opens its block. -/
theorem Opened.push (h : Opened enclosing marks) (opener : Lexeme)
    (hopener : opener.token = .opening .curly) (hcurrent : IsWhole current.reverse)
    {statement : List Component} (hstatement : IsHead statement) :
    Opened (⟨opener, statement.reverse ++ current⟩ :: enclosing)
      (marks ++ (Tree.marksOfAll (readAll current.reverse) ++
        [.opening (withBlock statement)])) := by
  have := h.cons hopener hcurrent hstatement
  rwa [List.reverse_append, List.reverse_reverse] at this

/-- When the innermost block of a statement ends, its statement is read. -/
theorem Opened.close {group : OpenGroup} {outer : List OpenGroup}
    (h : Opened (group :: outer) marks) (inside : List Component) (closer : Option Lexeme) :
    ∃ marks' before, Opened outer marks' ∧ IsWhole before ∧
      (Component.block group.opener inside closer :: group.earlier).reverse = before ∧
      marks' ++ Tree.marksOfAll (readAll before) =
        marks ++ (Tree.marksOfAll (readAll inside) ++ [.closing]) := by
  cases h with
  | @cons _ marks' opener before statement houter hopener hbefore hstatement =>
    obtain ⟨hwhole, hread⟩ := hstatement.isWhole_block hopener inside closer
    refine ⟨marks', _, houter, hbefore.append hwhole, by simp, ?_⟩
    rw [hbefore, hread]
    simp [Tree.marks_of_hasBlock (withBlock_ne_root statement).2]

/-- The end of the text ends all blocks. -/
theorem Opened.marks_closeGroups (h : Opened enclosing marks) :
    ∀ current, Tree.marksOfAll (readAll (closeGroups enclosing current)) =
      marks ++ Tree.marksOfAll (readAll current.reverse) ++
        List.replicate enclosing.length .closing := by
  induction enclosing generalizing marks with
  | nil =>
    cases h
    simp [closeGroups]
  | cons group outer ih =>
    intro current
    obtain ⟨marks', before, houter, -, hbefore, hmarks⟩ := h.close current.reverse none
    rw [closeGroups, ih houter, hbefore, hmarks, List.length_cons, List.replicate_succ]
    simp

theorem depthAfter_map_leaf (depth : Nat) (outcome : Option NodeKind) :
    Mark.depthAfter depth (outcome.map Mark.leaf) = depth := by
  cases outcome <;> rfl

/-- What is read of a text that goes on behind a grouping is what is met in the text. -/
def Agrees (text : List Char) : Prop :=
  ∀ (enclosing : List OpenGroup) (marks : List Mark) (current : List Component),
    Opened enclosing marks → IsWhole current.reverse →
      Tree.marksOfAll (readAll ((⟨current, enclosing⟩ : Grouping).complete text)) =
        marks ++ (Tree.marksOfAll (readAll current.reverse) ++ Mark.met enclosing.length text)

theorem agrees_nil : Agrees [] := by
  intro enclosing marks current h _
  rw [complete_nil, h.marks_closeGroups, Mark.met_nil, List.append_assoc]

/-- A token that makes a whole on its own. -/
theorem agrees_of_single {text : List Char} {t : Scan Token} (ht : Token.scan? text = some t)
    (hopened : t.value.opened? = none) (hclosed : t.value.closed? = none) {trees : List Tree}
    (hwhole : IsWhole [.single ⟨t.value, t.lexeme⟩] ∧
      readAll [.single ⟨t.value, t.lexeme⟩] = trees)
    (hmet : ∀ depth, Mark.met depth text = Tree.marksOfAll trees ++ Mark.met depth t.rest)
    (hrest : Agrees t.rest) : Agrees text := by
  intro enclosing marks current h hcurrent
  obtain ⟨hwhole, hread⟩ := hwhole
  have hboth : IsWhole (Component.single ⟨t.value, t.lexeme⟩ :: current).reverse := by
    simpa using hcurrent.append hwhole
  rw [complete_of_scan? ht, step_of_single hopened (by simp [hclosed]), hrest _ _ _ h hboth, hmet,
    List.reverse_cons, hcurrent, hread]
  simp

/-- The closing of the block of a statement. -/
theorem marks_complete_closing {enclosing : List OpenGroup} {marks : List Mark}
    {current : List Component} (h : Opened enclosing marks)
    (hne : enclosing ≠ []) {text : List Char} {t : Scan Token} (ht : Token.scan? text = some t)
    (hvalue : t.value = .closing .curly) (hrest : Agrees t.rest) :
    Tree.marksOfAll (readAll ((⟨current, enclosing⟩ : Grouping).complete text)) =
      marks ++ (Tree.marksOfAll (readAll current.reverse) ++
        .closing :: Mark.met (enclosing.length - 1) t.rest) := by
  obtain ⟨group, outer, rfl⟩ := List.exists_cons_of_ne_nil hne
  have hgroup : group.bracket? = some .curly := by
    rw [OpenGroup.bracket?, h.around.opener_eq group rfl]
    rfl
  obtain ⟨marks', before, houter, hbefore, hreverse, hmarks⟩ :=
    h.close current.reverse (some ⟨t.value, t.lexeme⟩)
  rw [complete_of_scan? ht, step_of_closed (by rw [hvalue]; rfl) (by rw [hvalue]; rfl) hgroup,
    hrest _ _ _ houter (hreverse ▸ hbefore), hreverse, ← List.append_assoc, hmarks]
  simp

section

variable {enclosing : List OpenGroup} {marks : List Mark} {statement current : List Component}
  (h : Opened enclosing marks) (hcurrent : IsWhole current.reverse) (hstatement : IsHead statement)
include h hcurrent hstatement

/-- The opening of the block of a statement. -/
theorem marks_complete_opening {rest : List Char} (hrest : Agrees rest) :
    Tree.marksOfAll (readAll
        ((⟨statement.reverse ++ current, enclosing⟩ : Grouping).complete ('{' :: rest))) =
      marks ++ (Tree.marksOfAll (readAll current.reverse) ++
        .opening (withBlock statement) :: Mark.met (enclosing.length + 1) rest) := by
  have hpush := h.push ⟨.opening .curly, ['{']⟩ rfl hcurrent hstatement
  have hnil : IsWhole ([] : List Component).reverse := isWhole_nil
  rw [complete_of_scan? (Token.scan?_of_isHard (.inr (.inl rfl)) rest), step_of_opened rfl]
  exact (hrest _ _ _ hpush hnil).trans (by simp)

omit h in
/-- A statement without a block is read when it ends. -/
theorem marks_readAll_current :
    Tree.marksOfAll (readAll (statement.reverse ++ current).reverse) =
      Tree.marksOfAll (readAll current.reverse) ++
        ((withoutBlock? statement).map Mark.leaf).toList := by
  rw [List.reverse_append, List.reverse_reverse, hcurrent, hstatement.readAll_eq,
    Tree.marksOfAll_append, marksOfAll_leaves]

/-- The semicolon behind a statement. -/
theorem marks_complete_semicolon {rest : List Char} (hrest : Agrees rest) :
    Tree.marksOfAll (readAll
        ((⟨statement.reverse ++ current, enclosing⟩ : Grouping).complete (';' :: rest))) =
      marks ++ (Tree.marksOfAll (readAll current.reverse) ++
        (((withoutBlock? statement).map Mark.leaf).toList ++ Mark.met enclosing.length rest)) := by
  obtain ⟨hwhole, hleaves⟩ :=
    hstatement.isWhole_semicolon ⟨.delimiter ';', [';']⟩ rfl
  have hboth : (Component.single ⟨.delimiter ';', [';']⟩ ::
      (statement.reverse ++ current)).reverse =
      current.reverse ++ (statement ++ [.single ⟨.delimiter ';', [';']⟩]) := by
    simp
  have hwhole' := hboth ▸ hcurrent.append hwhole
  rw [complete_of_scan? (Token.scan?_of_isHard (.inl rfl) rest),
    step_of_single rfl (by simp [Token.ofChar, Token.closed?])]
  refine (hrest _ _ _ h hwhole').trans ?_
  rw [show (Component.single _ :: (statement.reverse ++ current)).reverse = _ from hboth,
    hcurrent, hleaves, Tree.marksOfAll_append, marksOfAll_leaves, List.append_assoc]

end

/-- The end of a prelude is the end of a statement, or the opening of its block. -/
theorem marks_complete_behindPrelude {enclosing : List OpenGroup} {marks : List Mark}
    {statement current : List Component} (h : Opened enclosing marks)
    (hcurrent : IsWhole current.reverse) (hstatement : IsHead statement) (before : List Char)
    {head : Scan (List Piece)} (hends : Prelude.endsBefore (0 < enclosing.length) head.rest)
    (hrest : Agrees head.rest.tail) :
    let s := Mark.behindPrelude before head (withBlock statement) (withoutBlock? statement)
    Tree.marksOfAll (readAll
        ((⟨statement.reverse ++ current, enclosing⟩ : Grouping).complete head.rest)) =
      marks ++ (Tree.marksOfAll (readAll current.reverse) ++
        (s.value.toList ++ Mark.met (Mark.depthAfter enclosing.length s.value) s.rest)) := by
  by_cases hopen : ∃ rest, head.rest = '{' :: rest
  · obtain ⟨rest, hr⟩ := hopen
    rw [hr] at hrest
    unfold Mark.behindPrelude
    rw [hr]
    exact marks_complete_opening h hcurrent hstatement hrest
  have hleaf : Mark.behindPrelude before head (withBlock statement) (withoutBlock? statement) =
      ⟨before ++ head.lexeme, (withoutBlock? statement).map .leaf, head.rest⟩ := by
    unfold Mark.behindPrelude
    split
    · exact absurd ⟨_, ‹_›⟩ hopen
    · rfl
  simp only [hleaf, depthAfter_map_leaf]
  cases hr : head.rest with
  | nil =>
    rw [complete_nil, h.marks_closeGroups, marks_readAll_current hcurrent hstatement]
    simp [Mark.met_nil]
  | cons c rest =>
    rw [hr] at hends hrest hopen
    by_cases hsemicolon : c = ';'
    · subst hsemicolon
      rw [Mark.met_semicolon]
      exact marks_complete_semicolon h hcurrent hstatement hrest
    · have hopen' : c ≠ '{' := fun hc => hopen ⟨rest, by rw [hc]⟩
      obtain ⟨hin, rfl⟩ : 0 < enclosing.length ∧ c = '}' := by
        simpa [Prelude.endsBefore, hopen', hsemicolon] using hends
      have hne : enclosing ≠ [] := List.length_pos_iff.mp hin
      have ht := Token.scan?_of_isHard (.inr (.inr rfl)) rest
      have hmet : Mark.met enclosing.length ('}' :: rest) =
          .closing :: Mark.met (enclosing.length - 1) rest := by
        rw [Mark.met_of_scan? (Mark.scan?_of_closing (by simpa using hin) ht rfl)]
        rfl
      refine (marks_complete_closing h hne ht rfl hrest).trans ?_
      rw [marks_readAll_current hcurrent hstatement, hmet, List.append_assoc]

theorem pieceKind_of_startsStatement {inBlock : Bool} {token : Token}
    (h : Mark.startsStatement inBlock token) :
    token.pieceKind = .solid ∧ ∀ name, token ≠ .atKeyword name := by
  unfold Mark.startsStatement at h
  split at h <;> simp_all [Token.pieceKind]

section

variable {enclosing : List OpenGroup} {marks : List Mark} {current : List Component}
  {text : List Char} {t : Scan Token}
  (h : Opened enclosing marks) (hcurrent : IsWhole current.reverse)
  (ht : Token.scan? text = some t)
  (hshorter : ∀ text', text'.length < text.length → Agrees text')
include h hcurrent ht hshorter

/-- An at-rule with its name and its prelude. -/
theorem marks_complete_atRule {name : List Char} (hv : t.value = .atKeyword name) :
    let s := Mark.scanAtRule (0 < enclosing.length) t name
    Tree.marksOfAll (readAll ((⟨current, enclosing⟩ : Grouping).complete text)) =
      marks ++ (Tree.marksOfAll (readAll current.reverse) ++
        (s.value.toList ++ Mark.met (Mark.depthAfter enclosing.length s.value) s.rest)) := by
  have hlt := Token.length_rest_lt_of_scan?_eq_some ht
  have hle := (Prelude.splits_scan (0 < enclosing.length) t.rest).length_rest_le
  obtain ⟨components, hcomplete, hpieces, hends, -⟩ :=
    exists_prelude h.around t.rest (.single ⟨t.value, t.lexeme⟩ :: current)
  have hstatement : IsHead (.single ⟨t.value, t.lexeme⟩ :: components) := by
    refine isHead_of_starts (fun component hmem => ?_)
      (by simp [starts, isSpace, isComment, lead, hv, Token.pieceKind])
    rcases List.mem_cons.mp hmem with rfl | hmem
    · simp [endsStatement, hv]
    · exact hends component hmem
  have hbehind := marks_complete_behindPrelude h hcurrent hstatement t.lexeme
    (Prelude.endsBefore_rest_scan (0 < enclosing.length) t.rest)
    (hshorter _ (by rw [List.length_tail]; omega))
  obtain ⟨hwith, hwithout⟩ :=
    withBlock_of_atKeyword ⟨t.value, t.lexeme⟩ hv components
  rw [complete_of_scan? ht, step_of_single (by rw [hv]; rfl) (by simp [hv, Token.closed?]),
    hcomplete]
  simp only [hwith, hwithout, kept_eq, hpieces, List.reverse_cons, List.append_assoc,
    List.singleton_append] at hbehind
  exact hbehind

/-- A rule or a declaration with its prelude. -/
theorem marks_complete_statement (hstarts : Mark.startsStatement (0 < enclosing.length) t.value) :
    let s := Mark.scanStatement (0 < enclosing.length) text
    Tree.marksOfAll (readAll ((⟨current, enclosing⟩ : Grouping).complete text)) =
      marks ++ (Tree.marksOfAll (readAll current.reverse) ++
        (s.value.toList ++ Mark.met (Mark.depthAfter enclosing.length s.value) s.rest)) := by
  have hlt := Token.length_rest_lt_of_scan?_eq_some ht
  have hle := (Prelude.splits_scan (0 < enclosing.length) text).length_rest_le
  obtain ⟨components, hcomplete, hpieces, hends, hlead⟩ := exists_prelude h.around text current
  obtain ⟨hsolid, hname⟩ := pieceKind_of_startsStatement hstarts
  have hfirst : ∀ component ∈ components.head?, component.lead = t.value := by
    intro component hmem
    cases hends' : Prelude.endsBefore (0 < enclosing.length) text with
    | true =>
      rw [Prelude.scan_of_ends hends', List.map_eq_nil_iff] at hpieces
      simp [hpieces] at hmem
    | false =>
      have := hlead hends'
      rw [hmem, ht] at this
      exact Option.some.inj this
  have hstatement : IsHead components := isHead_of_starts hends fun component hmem => by
    simp [starts, isSpace, isComment, hfirst component hmem, hsolid]
  have hbehind := marks_complete_behindPrelude h hcurrent hstatement []
    (Prelude.endsBefore_rest_scan (0 < enclosing.length) text)
    (hshorter _ (by rw [List.length_tail]; omega))
  obtain ⟨hrule, hdeclaration⟩ := withBlock_of_ne fun component hmem name =>
    hfirst component hmem ▸ hname name
  rw [hcomplete]
  simp only [hrule, hdeclaration, declaration?_eq, kept_eq, hpieces] at hbehind
  exact hbehind

end

/-- What stands behind a grouping is read as it is met. -/
theorem agrees (text : List Char) : Agrees text := by
  induction hlength : text.length using Nat.strong_induction_on generalizing text with
  | _ n ih =>
    subst hlength
    have hshorter : ∀ text', text'.length < text.length → Agrees text' := fun text' hlt =>
      ih _ hlt text' rfl
    intro enclosing marks current h hcurrent
    cases hscan : Mark.scan? (0 < enclosing.length) text with
    | none =>
      rw [Mark.scan?_eq_none_iff.mp hscan]
      exact agrees_nil _ _ _ h hcurrent
    | some s =>
      obtain ⟨t, ht, hcases⟩ := Mark.scan?_cases hscan
      have hrest := hshorter t.rest (Token.length_rest_lt_of_scan?_eq_some ht)
      rcases hcases with ⟨hv | hv, rfl⟩ | ⟨body, hv, rfl⟩ | ⟨hv, hin, rfl⟩ | ⟨name, hv, rfl⟩ |
        ⟨hstarts, rfl⟩
      · exact agrees_of_single ht (by rw [hv]; rfl) (by rw [hv]; rfl) (isWhole_space hv)
          (fun _ => Mark.met_of_scan? (Mark.scan?_of_skipped ht (.inl hv))) hrest _ _ _ h hcurrent
      · exact agrees_of_single ht (by rw [hv]; rfl) (by rw [hv]; rfl)
          (isHead_nil.isWhole_semicolon _ hv)
          (fun _ => Mark.met_of_scan? (Mark.scan?_of_skipped ht (.inr hv))) hrest _ _ _ h hcurrent
      · exact agrees_of_single ht (by rw [hv]; rfl) (by rw [hv]; rfl) (isWhole_comment hv)
          (fun _ => Mark.met_of_scan? (Mark.scan?_of_comment _ ht hv)) hrest _ _ _ h hcurrent
      · rw [Mark.met_of_scan? hscan]
        have hne : enclosing ≠ [] := List.length_pos_iff.mp (by simpa using hin)
        exact marks_complete_closing h hne ht hv hrest
      · rw [Mark.met_of_scan? hscan]
        exact marks_complete_atRule h hcurrent ht hshorter hv
      · rw [Mark.met_of_scan? hscan]
        exact marks_complete_statement h hcurrent ht hshorter hstarts

end Grouping

namespace Reading

/-- The reader comes to the trees of the components of the text. -/
theorem bareAll_ofText (css : String) :
    Tree.bareAll (ofText css).trees = Component.readAll (Component.ofText css.toList) := by
  obtain ⟨horderly, hmarks⟩ := orderly_ofText css
  have hnil : Component.IsWhole ([] : List Component).reverse := Component.isWhole_nil
  have hagrees := Grouping.agrees css.toList _ _ _ .nil hnil
  refine (Tree.bareAll_eq_of_marksOfAll_eq horderly (Component.allOrderly_readFrom [] _) ?_).trans
    (Component.bareAll_readFrom [] _)
  rw [hmarks]
  exact (hagrees.trans (by simp)).symm

end Reading

end Typography
