import Typography.Proofs.Stylesheet.Met

/-!
# The loops over the items of blocks

The reader holds the blocks that are open and needs no recursion. Seen from one block, it goes
round a loop: a turn reads an item, and an item that opens a block is read together with the loop
over the items of that block and with its end. Every turn takes some text away, so every loop
ends, in one way only, `Reader.exists_loop`. The loop of a block ends before the curly bracket
that closes the block, and this is the bracket that one finds by counting brackets, without any
idea of statements, `behindBrackets?`. The loop around all blocks ends at the end of the text.
-/

namespace Typography

/-- The text behind the bracket that closes the last of `brackets`, which are open before the
text. There is none if the text ends before. -/
def behindBrackets? (brackets : List Bracket) (text : List Char) : Option (List Char) :=
  match _h : Token.scan? text with
  | none => none
  | some t =>
    if t.value.nest brackets = [] then some t.rest
    else behindBrackets? (t.value.nest brackets) t.rest
termination_by text.length
decreasing_by exact Token.length_rest_lt_of_scan?_eq_some _h

theorem behindBrackets?_nil (brackets : List Bracket) : behindBrackets? brackets [] = none := by
  rw [behindBrackets?]
  rfl

theorem behindBrackets?_of_scan? {text : List Char} {t : Scan Token}
    (h : Token.scan? text = some t) (brackets : List Bracket) :
    behindBrackets? brackets text =
      if t.value.nest brackets = [] then some t.rest
      else behindBrackets? (t.value.nest brackets) t.rest := by
  rw [behindBrackets?]
  split <;> simp_all

/-- A text starts with the hard character that its first token stands for. -/
theorem Token.eq_cons_of_isHard {d : Char} (hd : Text.IsHard d) {text : List Char} {t : Scan Token}
    (ht : scan? text = some t) (h : t.value = ofChar d) : text = d :: t.rest := by
  have hsplits := splits_of_scan?_eq_some ht
  rwa [Scan.Splits, lexeme_of_isHard hd ht h, List.singleton_append, eq_comm] at hsplits

theorem Token.nest_append (token : Token) {inner : List Bracket} (h : inner ≠ [])
    (outer : List Bracket) : token.nest (inner ++ outer) = token.nest inner ++ outer := by
  obtain ⟨innermost, inner, rfl⟩ := List.exists_cons_of_ne_nil h
  unfold nest
  split <;> simp_all
  split <;> simp_all

/-- Brackets are closed from the inside out. -/
theorem behindBrackets?_append (text : List Char) {inner outer : List Bracket} (hinner : inner ≠ [])
    (houter : outer ≠ []) :
    behindBrackets? (inner ++ outer) text =
      (behindBrackets? inner text).bind (behindBrackets? outer) := by
  fun_induction behindBrackets? inner text with
  | case1 inner text hnone =>
    rw [Token.scan?_eq_none_iff.mp hnone, behindBrackets?_nil]
    rfl
  | case2 inner text t ht hclosed =>
    rw [behindBrackets?_of_scan? ht, t.value.nest_append hinner, hclosed, List.nil_append,
      if_neg houter]
    rfl
  | case3 inner text t ht hopen ih =>
    rw [behindBrackets?_of_scan? ht, t.value.nest_append hinner,
      if_neg (by simp [houter]), ih hopen]

/-- Reading to the end of brackets is reading to behind the last of them. -/
theorem rest_scanBrackets (text : List Char) {brackets : List Bracket} (h : brackets ≠ []) :
    (scanBrackets brackets text).rest = (behindBrackets? brackets text).getD [] := by
  fun_induction behindBrackets? brackets text with
  | case1 brackets text hnone =>
    rw [Token.scan?_eq_none_iff.mp hnone]
    exact List.suffix_nil.mp ⟨_, splits_scanBrackets brackets []⟩
  | case2 brackets text t ht hclosed =>
    rw [scanBrackets_of_scan? h ht, hclosed, scanBrackets_nil]
    rfl
  | case3 brackets text t ht hopen ih =>
    rw [scanBrackets_of_scan? h ht, Scan.rest_behind, ih hopen]

/-- The text behind the curly bracket that closes a block, which is open before the text. -/
def behindBlock? (text : List Char) : Option (List Char) :=
  behindBrackets? [.curly] text

/-- A curly bracket closes the block. -/
theorem behindBlock?_closing (rest : List Char) : behindBlock? ('}' :: rest) = some rest := by
  rw [behindBlock?, behindBrackets?_of_scan? (Token.scan?_of_isHard (.inr (.inr rfl)) rest)]
  exact if_pos rfl

/-- A block inside the block ends before it. -/
theorem behindBlock?_opening (rest : List Char) :
    behindBlock? ('{' :: rest) = (behindBlock? rest).bind behindBlock? := by
  have hnest : (Token.ofChar '{').nest [.curly] = [.curly] ++ [.curly] := rfl
  rw [behindBlock?, behindBrackets?_of_scan? (Token.scan?_of_isHard (.inr (.inl rfl)) rest),
    hnest, if_neg (by simp), behindBrackets?_append _ (by simp) (by simp)]
  rfl

/-- A token that is no curly bracket, with the brackets that it opens, leaves the block open. -/
theorem behindBlock?_of_scan? {text : List Char} {t : Scan Token} (ht : Token.scan? text = some t)
    (hclosing : t.value ≠ .closing .curly) :
    behindBlock? text = behindBlock? (scanBrackets t.value.opened?.toList t.rest).rest := by
  rw [behindBlock?, behindBrackets?_of_scan? ht]
  cases hopened : t.value.opened? with
  | none =>
    have hnest : t.value.nest [.curly] = [.curly] := by
      cases hv : t.value <;> simp_all [Token.nest, Token.opened?, Token.closed?]
    rw [hnest, if_neg (by simp), Option.toList_none, scanBrackets_nil, behindBlock?]
  | some bracket =>
    have hnest : t.value.nest [.curly] = [bracket] ++ [.curly] := by
      simp [Token.nest, hopened]
    rw [hnest, if_neg (by simp), behindBrackets?_append _ (by simp) (by simp),
      Option.toList_some, rest_scanBrackets _ (by simp)]
    cases behindBrackets? [bracket] t.rest with
    | none => exact (behindBrackets?_nil _).symm
    | some rest => rfl

theorem behindBlock?_semicolon (rest : List Char) :
    behindBlock? (';' :: rest) = behindBlock? rest := by
  rw [behindBlock?_of_scan? (Token.scan?_of_isHard (.inl rfl) rest) (by simp [Token.ofChar])]
  exact congrArg (fun s => behindBlock? s.rest) (scanBrackets_nil rest)

/-- A prelude does not reach beyond the block around it. -/
theorem behindBlock?_prelude (text : List Char) :
    behindBlock? text = behindBlock? (Prelude.scan true text).rest := by
  fun_induction Prelude.scan true text with
  | case1 => rfl
  | case2 => rfl
  | case3 text hends t ht inside ih =>
    have hclosing : t.value ≠ .closing .curly := fun hv => by
      rw [Token.eq_cons_of_isHard (d := '}') (.inr (.inr rfl)) ht hv] at hends
      simp [Prelude.endsBefore] at hends
    rw [behindBlock?_of_scan? ht hclosing, ih]
    rfl

namespace Reader

/-- Whether the loop over the items of the innermost block ends here: before the curly bracket
that closes the block, or at the end of the text. -/
def atEnd (r : Reader) : Bool :=
  match r.cursor.unread with
  | [] => true
  | c :: _ => r.inBlock && c == '}'

/-- Leaves the innermost block, with the curly bracket that closes it if there is one. -/
def leaveBlock (r : Reader) : Reader :=
  match r.cursor.unread with
  | [] => r.closeBlock
  | c :: rest => (r.pass ⟨[c], (), rest⟩).closeBlock

mutual

/-- A turn of the loop over the items of a block, from one reader to the next: an item, and if
it opens a block the loop over the items of that block and its end. -/
inductive Turn : Reader → Reader → Prop
  | item {r : Reader} {t : Scan Token} :
    r.atEnd = false → Token.scan? r.cursor.unread = some t →
      (r.step t).enclosing = r.enclosing → Turn r (r.step t)
  | block {r inside : Reader} {t : Scan Token} {block : OpenBlock} :
    r.atEnd = false → Token.scan? r.cursor.unread = some t →
      (r.step t).enclosing = block :: r.enclosing → Loop (r.step t) inside →
      Turn r inside.leaveBlock

/-- The loop over the items of a block, from one of its turns to its end. -/
inductive Loop : Reader → Reader → Prop
  | done {r : Reader} : r.atEnd → Loop r r
  | turn {r r' r'' : Reader} : Turn r r' → Loop r' r'' → Loop r r''

end

/-- One reader is further in the text than another: what it leaves is a shorter end of the text. -/
structure Advances (r r' : Reader) : Prop where
  suffix : r'.cursor.unread <:+ r.cursor.unread
  length_lt : r'.cursor.unread.length < r.cursor.unread.length

/-- Two readers between the items of one block: the later one has an end of the text of the other
before it and the same open blocks around it, the same bracket closes the innermost of them, and
both end with the same reading. -/
structure Keeps (r r' : Reader) : Prop where
  suffix : r'.cursor.unread <:+ r.cursor.unread
  enclosing_eq : r'.enclosing = r.enclosing
  behindBlock?_eq : r.inBlock → behindBlock? r.cursor.unread = behindBlock? r'.cursor.unread
  finish_eq : r'.run.finish = r.run.finish

variable {r r' r'' inside : Reader} {t : Scan Token}

theorem inBlock_of_enclosing_eq (h : r'.enclosing = r.enclosing) : r'.inBlock = r.inBlock := by
  rw [inBlock, h, inBlock]

theorem Keeps.refl (r : Reader) : Keeps r r :=
  ⟨List.suffix_refl _, rfl, fun _ => rfl, rfl⟩

theorem Keeps.trans (h : Keeps r r') (h' : Keeps r' r'') : Keeps r r'' where
  suffix := h'.suffix.trans h.suffix
  enclosing_eq := h'.enclosing_eq.trans h.enclosing_eq
  behindBlock?_eq hin := (h.behindBlock?_eq hin).trans
    (h'.behindBlock?_eq (inBlock_of_enclosing_eq h.enclosing_eq ▸ hin))
  finish_eq := h'.finish_eq.trans h.finish_eq

theorem run_of_scan? (ht : Token.scan? r.cursor.unread = some t) : r.run = (r.step t).run := by
  rw [run]
  split <;> simp_all

theorem run_of_nil (h : r.cursor.unread = []) : r.run = r := by
  rw [run]
  split
  · rfl
  · simp_all [Token.scan?]

/-- Reading on from a prelude opens a block or ends a statement. -/
theorem behindPrelude_cases (r : Reader) (start : Position) (head : Scan (List Piece))
    (withBlock : NodeKind) (outcome : Except SkipReason NodeKind) :
    let r' := r.behindPrelude start head withBlock outcome
    (r'.enclosing = ⟨withBlock, start, r.siblings⟩ :: r.enclosing ∧
        head.rest = '{' :: r'.cursor.unread) ∨
      (r'.enclosing = r.enclosing ∧
        (head.rest = r'.cursor.unread ∨ head.rest = ';' :: r'.cursor.unread)) := by
  have hend : ∀ r₀ : Reader, (r₀.endStatement start outcome).enclosing = r₀.enclosing := by
    intro r₀
    cases outcome <;> rfl
  unfold behindPrelude
  split
  · rename_i hrest
    exact .inl ⟨rfl, hrest⟩
  · rename_i hrest
    exact .inr ⟨hend _, .inr (by simpa using hrest)⟩
  · exact .inr ⟨hend _, .inl (by simp)⟩

theorem suffix_behindPrelude (r : Reader) (start : Position) {head : Scan (List Piece)}
    (h : head.Splits r.cursor.unread) (withBlock : NodeKind)
    (outcome : Except SkipReason NodeKind) :
    (r.behindPrelude start head withBlock outcome).cursor.unread <:+ r.cursor.unread := by
  have hhead : head.rest <:+ r.cursor.unread := ⟨_, h⟩
  rcases behindPrelude_cases r start head withBlock outcome with ⟨-, hrest⟩ | ⟨-, hrest | hrest⟩
  · rw [hrest] at hhead
    exact (List.suffix_cons _ _).trans hhead
  · rwa [hrest] at hhead
  · rw [hrest] at hhead
    exact (List.suffix_cons _ _).trans hhead

theorem suffix_readStatement (r : Reader) : r.readStatement.cursor.unread <:+ r.cursor.unread :=
  suffix_behindPrelude r _ (Prelude.splits_scan _ _) _ _

/-- An item is read from the front of what is unread. -/
theorem suffix_step (ht : Token.scan? r.cursor.unread = some t) :
    (r.step t).cursor.unread <:+ r.cursor.unread := by
  have hrest : t.rest <:+ r.cursor.unread := ⟨_, Token.splits_of_scan?_eq_some ht⟩
  unfold step
  split
  · exact hrest
  · exact hrest
  · exact hrest
  · exact (suffix_behindPrelude (r.pass t) _ (Prelude.splits_scan _ _) _ _).trans hrest
  · split
    · simpa using hrest
    · exact suffix_readStatement r
  · exact suffix_readStatement r

/-- Every item takes some of the text away. -/
theorem advances_step (ht : Token.scan? r.cursor.unread = some t) : Advances r (r.step t) :=
  ⟨suffix_step ht, length_unread_step_lt ht⟩

/-- What an item between the front and the end of a block comes to: nothing that opens a block,
or the opening of one. Either leaves the block open. -/
inductive Reads (r r' : Reader) : Prop
  | within : r'.enclosing = r.enclosing →
    (r.inBlock → behindBlock? r.cursor.unread = behindBlock? r'.cursor.unread) → Reads r r'
  | opening (block : OpenBlock) : r'.enclosing = block :: r.enclosing →
    (r.inBlock →
      behindBlock? r.cursor.unread = (behindBlock? r'.cursor.unread).bind behindBlock?) →
    Reads r r'

theorem reads_behindPrelude (r : Reader) (start : Position) (withBlock : NodeKind)
    (outcome : Except SkipReason NodeKind) :
    Reads r (r.behindPrelude start (Prelude.scan r.inBlock r.cursor.unread) withBlock outcome) := by
  have hprelude : r.inBlock → behindBlock? r.cursor.unread =
      behindBlock? (Prelude.scan r.inBlock r.cursor.unread).rest := fun hin => by
    rw [hin]
    exact behindBlock?_prelude _
  rcases behindPrelude_cases r start (Prelude.scan r.inBlock r.cursor.unread) withBlock outcome with
    ⟨henclosing, hrest⟩ | ⟨henclosing, hrest | hrest⟩
  · exact .opening _ henclosing fun hin => by
      rw [hprelude hin, hrest, behindBlock?_opening]
  · exact .within henclosing fun hin => by rw [hprelude hin, hrest]
  · exact .within henclosing fun hin => by
      rw [hprelude hin, hrest, behindBlock?_semicolon]

/-- Before the end of a block no item closes it. -/
theorem reads_step (hend : r.atEnd = false) (ht : Token.scan? r.cursor.unread = some t) :
    Reads r (r.step t) := by
  -- the bracket that would close the block stands before its end only, which is excluded
  have hclosing : r.inBlock → t.value ≠ .closing .curly := fun hin hv => by
    simp [atEnd, Token.eq_cons_of_isHard (d := '}') (.inr (.inr rfl)) ht hv, hin] at hend
  have hrest : t.value.opened? = none → r.inBlock →
      behindBlock? r.cursor.unread = behindBlock? t.rest := fun hopened hin => by
    rw [behindBlock?_of_scan? ht (hclosing hin), hopened, Option.toList_none, scanBrackets_nil]
  unfold step
  split
  · rename_i hv
    exact .within rfl (hrest (by rw [hv]; rfl))
  · rename_i hv
    exact .within rfl (hrest (by rw [hv]; rfl))
  · rename_i hv
    exact .within rfl (hrest (by rw [hv]; rfl))
  · rename_i name hv
    have hbehind := hrest (by rw [hv]; rfl)
    rcases reads_behindPrelude (r.pass t) r.cursor.position _ _ with
      ⟨henclosing, hblock⟩ | ⟨block, henclosing, hblock⟩
    · exact .within henclosing fun hin => (hbehind hin).trans (hblock hin)
    · exact .opening block henclosing fun hin => (hbehind hin).trans (hblock hin)
  -- a statement is read from before its first token, whichever token this is
  · rename_i hv
    split
    · exact absurd hv (hclosing ‹_›)
    · exact reads_behindPrelude r _ _ _
  · exact reads_behindPrelude r _ _ _

theorem unread_eq_of_atEnd (h : r.atEnd) :
    r.cursor.unread = [] ∨ r.inBlock ∧ ∃ rest, r.cursor.unread = '}' :: rest := by
  unfold atEnd at h
  split at h
  · exact .inl ‹_›
  · rename_i c rest hunread
    simp only [Bool.and_eq_true, beq_iff_eq] at h
    exact .inr ⟨h.1, rest, h.2 ▸ hunread⟩

theorem finish_closeBlock (r : Reader) : r.closeBlock.finish = r.finish := by
  obtain ⟨cursor, siblings, _ | ⟨block, outer⟩, warnings⟩ := r <;> rfl

/-- At its end a block is left for the one around it, and the bracket that closes it is read. -/
theorem leaveBlock_of_atEnd {block : OpenBlock} {outer : List OpenBlock} (hend : r.atEnd)
    (h : r.enclosing = block :: outer) :
    r.leaveBlock.enclosing = outer ∧ r.leaveBlock.cursor.unread <:+ r.cursor.unread ∧
      (behindBlock? r.cursor.unread).bind behindBlock? =
        behindBlock? r.leaveBlock.cursor.unread ∧
      r.leaveBlock.run.finish = r.run.finish := by
  have hclose : ∀ r₀ : Reader, r₀.enclosing = r.enclosing → r₀.closeBlock.enclosing = outer := by
    intro r₀ h₀
    rw [closeBlock, h₀, h]
  rcases unread_eq_of_atEnd hend with hnil | ⟨hin, rest, hclosing⟩
  · have hleave : r.leaveBlock = r.closeBlock := by rw [leaveBlock, hnil]
    have hunread : r.closeBlock.cursor.unread = [] := by rw [cursor_closeBlock, hnil]
    rw [hleave]
    refine ⟨hclose r rfl, by simp, ?_, ?_⟩
    · rw [hnil, hunread, behindBlock?, behindBrackets?_nil]
      rfl
    · rw [run_of_nil hunread, run_of_nil hnil, finish_closeBlock]
  · have ht := Token.scan?_of_isHard (d := '}') (.inr (.inr rfl)) rest
    rw [← hclosing] at ht
    have hleave : r.leaveBlock = r.step ⟨['}'], Token.ofChar '}', rest⟩ := by
      rw [leaveBlock, hclosing]
      exact (if_pos hin).symm
    have hunread : r.leaveBlock.cursor.unread = rest := by
      rw [leaveBlock, hclosing]
      simp
    refine ⟨?_, by rw [hunread, hclosing]; exact List.suffix_cons _ _, ?_, ?_⟩
    · rw [leaveBlock, hclosing]
      exact hclose _ rfl
    · rw [hclosing, hunread, behindBlock?_closing]
      rfl
    · rw [run_of_scan? ht, hleave]

theorem keeps_item (hend : r.atEnd = false) (ht : Token.scan? r.cursor.unread = some t)
    (henclosing : (r.step t).enclosing = r.enclosing) : Keeps r (r.step t) where
  suffix := suffix_step ht
  enclosing_eq := henclosing
  behindBlock?_eq hin := by
    rcases reads_step hend ht with ⟨-, hblock⟩ | ⟨block, hopening, -⟩
    · exact hblock hin
    · exact absurd (hopening.symm.trans henclosing) (List.cons_ne_self block _)
  finish_eq := congrArg finish (run_of_scan? ht).symm

/-- A block is read with the loop over its items, to behind the bracket that closes it. -/
theorem keeps_block {block : OpenBlock} (hend : r.atEnd = false)
    (ht : Token.scan? r.cursor.unread = some t)
    (henclosing : (r.step t).enclosing = block :: r.enclosing) (h : Keeps (r.step t) inside)
    (hinside : inside.atEnd) : Keeps r inside.leaveBlock ∧ Advances r inside.leaveBlock := by
  obtain ⟨houter, hsuffix, hbehind, hfinish⟩ :=
    leaveBlock_of_atEnd hinside (h.enclosing_eq.trans henclosing)
  have hstep := hsuffix.trans h.suffix
  refine ⟨⟨hstep.trans (suffix_step ht), houter, fun hin => ?_, ?_⟩,
    hstep.trans (suffix_step ht), Nat.lt_of_le_of_lt hstep.length_le (length_unread_step_lt ht)⟩
  · have hin' : (r.step t).inBlock := by rw [inBlock, henclosing]; rfl
    rcases reads_step hend ht with ⟨hwithin, -⟩ | ⟨-, -, hblock⟩
    · exact absurd (henclosing.symm.trans hwithin) (List.cons_ne_self block _)
    · rw [hblock hin, h.behindBlock?_eq hin', hbehind]
  · rw [hfinish, h.finish_eq, run_of_scan? ht]

mutual

/-- Every turn leaves less of the text and nothing beyond the end of the block. -/
theorem Turn.keeps : ∀ {r r' : Reader}, Turn r r' → Keeps r r' ∧ Advances r r'
  | _, _, .item hend ht henclosing => ⟨keeps_item hend ht henclosing, advances_step ht⟩
  | _, _, .block hend ht henclosing hinside =>
    keeps_block hend ht henclosing hinside.keeps.1 hinside.keeps.2

theorem Loop.keeps : ∀ {r r' : Reader}, Loop r r' → Keeps r r' ∧ r'.atEnd
  | _, _, .done hend => ⟨.refl _, hend⟩
  | _, _, .turn hturn hloop => ⟨hturn.keeps.1.trans hloop.keeps.1, hloop.keeps.2⟩

end

theorem Turn.atEnd_eq (h : Turn r r') : r.atEnd = false := by
  cases h <;> assumption

mutual

theorem Turn.unique : ∀ {r r' r'' : Reader}, Turn r r' → Turn r r'' → r' = r''
  | _, _, _, .item _ ht henclosing, h => by
    cases h with
    | item _ ht' =>
      obtain rfl := Option.some.inj (ht.symm.trans ht')
      rfl
    | block _ ht' henclosing' =>
      obtain rfl := Option.some.inj (ht.symm.trans ht')
      exact absurd (henclosing'.symm.trans henclosing) (List.cons_ne_self _ _)
  | _, _, _, .block _ ht henclosing hinside, h => by
    cases h with
    | item _ ht' henclosing' =>
      obtain rfl := Option.some.inj (ht.symm.trans ht')
      exact absurd (henclosing.symm.trans henclosing') (List.cons_ne_self _ _)
    | block _ ht' _ hinside' =>
      obtain rfl := Option.some.inj (ht.symm.trans ht')
      rw [hinside.unique hinside']

/-- A loop ends in one way only. -/
theorem Loop.unique : ∀ {r r' r'' : Reader}, Loop r r' → Loop r r'' → r' = r''
  | _, _, _, .done hend, h => by
    cases h with
    | done => rfl
    | turn hturn => simp [hturn.atEnd_eq] at hend
  | _, _, _, .turn hturn hloop, h => by
    cases h with
    | done hend => simp [hturn.atEnd_eq] at hend
    | turn hturn' hloop' =>
      obtain rfl := hturn.unique hturn'
      exact hloop.unique hloop'

end

/-- There is a turn before the end of a block, if the loops over shorter texts end. -/
theorem exists_turn (hend : r.atEnd = false)
    (hloops : ∀ inner : Reader, inner.cursor.unread.length < r.cursor.unread.length →
      ∃ r', Loop inner r') : ∃ r', Turn r r' := by
  obtain ⟨t, ht⟩ : ∃ t, Token.scan? r.cursor.unread = some t := by
    refine Option.ne_none_iff_exists'.mp fun hnone => ?_
    simp [atEnd, Token.scan?_eq_none_iff.mp hnone] at hend
  rcases reads_step hend ht with ⟨henclosing, -⟩ | ⟨block, henclosing, -⟩
  · exact ⟨_, .item hend ht henclosing⟩
  · obtain ⟨inside, hinside⟩ := hloops _ (length_unread_step_lt ht)
    exact ⟨_, .block hend ht henclosing hinside⟩

/-- The loop over the items of a block ends, by induction on the length of what is unread: the loop
of a block inside starts further on, and so does the rest of the loop behind that block. -/
theorem loop_total (r : Reader) : ∃ r', Loop r r' := by
  induction hlength : r.cursor.unread.length using Nat.strong_induction_on generalizing r with
  | _ n ih =>
    subst hlength
    cases hend : r.atEnd with
    | true => exact ⟨r, .done hend⟩
    | false =>
      obtain ⟨r', hturn⟩ := exists_turn hend fun inner hlt => ih _ hlt inner rfl
      obtain ⟨r'', hloop⟩ := ih _ hturn.keeps.2.length_lt r' rfl
      exact ⟨r'', .turn hturn hloop⟩

/-- Wherever a reader is, every item and every turn of the loop around it leaves less of the text,
also where a statement is read from before its first token. The loop ends, and in one way only:
around all blocks at the end of the text, and in a block before the curly bracket that closes
this block or, if there is none, at the end of the text. -/
theorem exists_loop (r : Reader) :
    (∀ t, Token.scan? r.cursor.unread = some t → Advances r (r.step t) ∧
      (Mark.startsStatement r.inBlock t.value → Advances r r.readStatement)) ∧
    (r.atEnd = false → ∃ r', Turn r r') ∧
    (∀ r', Turn r r' → Keeps r r' ∧ Advances r r') ∧
    ∃ r', (∀ other, Loop r other ↔ other = r') ∧ Keeps r r' ∧
      (r.inBlock = false → r'.cursor.unread = [] ∧
        r.run.finish = ⟨r'.siblings.reverse, r'.warnings.reverse⟩) ∧
      (r.inBlock → (r'.cursor.unread = [] ∧ behindBlock? r.cursor.unread = none) ∨
        ∃ rest, r'.cursor.unread = '}' :: rest ∧ behindBlock? r.cursor.unread = some rest) := by
  obtain ⟨r', hloop⟩ := loop_total r
  obtain ⟨hkeeps, hend⟩ := hloop.keeps
  have hin := inBlock_of_enclosing_eq hkeeps.enclosing_eq
  refine ⟨fun t ht => ⟨advances_step ht, fun hstarts => ?_⟩,
    fun hbefore => exists_turn hbefore fun inner _ => loop_total inner,
    fun _ hturn => hturn.keeps, r', fun other => ⟨fun h => h.unique hloop, ?_⟩, hkeeps,
    fun hroot => ?_, fun hblock => ?_⟩
  · rw [← step_of_startsStatement hstarts]
    exact advances_step ht
  · rintro rfl
    exact hloop
  · rcases unread_eq_of_atEnd hend with hnil | ⟨hblock, -⟩
    · have hnone : r'.enclosing = [] := by
        rw [← hin] at hroot
        simpa [inBlock] using hroot
      refine ⟨hnil, ?_⟩
      rw [← hkeeps.finish_eq, run_of_nil hnil, finish, hnone]
      rfl
    · rw [hin, hroot] at hblock
      cases hblock
  · rw [hkeeps.behindBlock?_eq hblock]
    rcases unread_eq_of_atEnd hend with hnil | ⟨-, rest, hclosing⟩
    · exact .inl ⟨hnil, by rw [hnil]; exact behindBrackets?_nil _⟩
    · exact .inr ⟨rest, hclosing, by rw [hclosing, behindBlock?_closing]⟩

/-- A block with brackets that close nothing, a text that is not closed and a block without a
prelude in it. -/
theorem exists_loop_ofStrayBrackets :
    let text := ")[\x7d]\x7b\x7d;\"a\n\x7bx:y\x7db:c;url(a b)\x7dd:e".toList
    let r : Reader := ⟨.ofText text, [], [⟨.rule "q", .start, []⟩], []⟩
    Advances r r.readStatement ∧ ∃ r', Loop r r' ∧ r'.cursor.unread = "\x7dd:e".toList := by
  intro text r
  obtain ⟨hitems, -, -, r', hloop, -, -, hblock⟩ := exists_loop r
  have ht : Token.scan? r.cursor.unread = some ⟨[')'], .closing .round, text.tail⟩ := rfl
  have hbehind : behindBlock? r.cursor.unread = some "d:e".toList := by decide +kernel
  refine ⟨(hitems _ ht).2 trivial, r', (hloop r').mpr rfl, ?_⟩
  rcases hblock rfl with ⟨-, hnone⟩ | ⟨rest, hclosing, hrest⟩
  · rw [hbehind] at hnone
    cases hnone
  · rw [hbehind] at hrest
    cases hrest
    exact hclosing

end Reader

end Typography
