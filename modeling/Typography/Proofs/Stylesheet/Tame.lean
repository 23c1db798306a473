import Mathlib.Data.List.Chain
import Typography.Proofs.Stylesheet.Locality

/-!
# Tame text

A text is tame if it holds no quote, no backslash, nothing that ends a statement and no
start of a comment. Tame text with nested brackets is a prelude that ends exactly where
the text does: none of its tokens reaches past it, and its brackets are closed in it.

The brackets that are open for a reader are not always those of the text, since an
address without quotes ends at its first closing parenthesis whatever was opened in it.
They are always some of them, `Token.Follows`, so none of them is open at the end.
-/

namespace Typography

namespace Text

/-- A round or square bracket. -/
def IsBracket (c : Char) : Prop :=
  c ∈ ['(', ')', '[', ']']

theorem IsBracket.isEdge {c : Char} (h : IsBracket c) : IsEdge c := by
  simp only [IsBracket, List.mem_cons, List.not_mem_nil, or_false] at h
  rcases h with rfl | rfl | rfl | rfl <;> decide

/-- The round and square brackets that are open behind a text, innermost first. There is
no answer if one is closed that is not the innermost. -/
def openBehind (brackets : List Bracket) : List Char → Option (List Bracket)
  | [] => some brackets
  | '(' :: cs => openBehind (.round :: brackets) cs
  | '[' :: cs => openBehind (.square :: brackets) cs
  | ')' :: cs => if brackets.head? = some .round then openBehind brackets.tail cs else none
  | ']' :: cs => if brackets.head? = some .square then openBehind brackets.tail cs else none
  | _ :: cs => openBehind brackets cs

/-- The brackets of a text are nested and closed. -/
def IsNested (cs : List Char) : Prop :=
  openBehind [] cs = some []

/-- A character that may stand in tame text. -/
def isTame (c : Char) : Bool :=
  !(c == '\\' || c == '"' || c == '\'' || c == ';' || c == '\x7b' || c == '\x7d')

/-- A text without quotes, backslashes, comments, and ends of statements. -/
structure IsTame (cs : List Char) : Prop where
  chars : ∀ c ∈ cs, isTame c
  noComment : cs.IsChain fun c c' => ¬(c = '/' ∧ c' = '*')

/-- A run of characters ends where another one stands. -/
theorem takeWhile_append_cons {p : Char → Bool} {c : Char} (hc : p c = false)
    (u cs : List Char) : (u ++ c :: cs).takeWhile p = u.takeWhile p := by
  induction u with
  | nil => simp [hc]
  | cons c' u ih => rw [List.cons_append, List.takeWhile_cons, List.takeWhile_cons, ih]

theorem dropWhile_append_cons {p : Char → Bool} {c : Char} (hc : p c = false)
    (u cs : List Char) : (u ++ c :: cs).dropWhile p = u.dropWhile p ++ c :: cs := by
  induction u with
  | nil => simp [hc]
  | cons c' u ih =>
    rw [List.cons_append, List.dropWhile_cons, List.dropWhile_cons, ih]
    split <;> rfl

theorem openBehind_append (u v : List Char) (brackets : List Bracket) :
    openBehind brackets (u ++ v) = (openBehind brackets u).bind fun between =>
      openBehind between v := by
  fun_induction openBehind brackets u <;> simp_all [openBehind]

theorem openBehind_cons_of_ne {c : Char} (h : ¬IsBracket c) (cs : List Char)
    (brackets : List Bracket) : openBehind brackets (c :: cs) = openBehind brackets cs := by
  rw [openBehind] <;> rintro rfl <;> simp [IsBracket] at h

/-- A text without brackets leaves them as they are. -/
theorem openBehind_of_not_bracket {cs : List Char} (h : ∀ c ∈ cs, ¬IsBracket c)
    (brackets : List Bracket) : openBehind brackets cs = some brackets := by
  induction cs with
  | nil => rfl
  | cons c cs ih =>
    rw [openBehind_cons_of_ne (h c List.mem_cons_self),
      ih fun c hc => h c (List.mem_cons_of_mem _ hc)]

/-- An open parenthesis stays open in a text without a closing one. -/
theorem openBehind_of_not_mem {u : List Char} (h : ')' ∉ u) (inner brackets : List Bracket)
    {behind : List Bracket} (hbehind : openBehind (inner ++ .round :: brackets) u = some behind) :
    ∃ inner', behind = inner' ++ .round :: brackets := by
  induction u generalizing inner with
  | nil => exact ⟨inner, (Option.some.inj hbehind).symm⟩
  | cons c u ih =>
    have hu : ')' ∉ u := fun hmem => h (List.mem_cons_of_mem _ hmem)
    by_cases hc : IsBracket c
    · simp only [IsBracket, List.mem_cons, List.not_mem_nil, or_false] at hc
      rcases hc with rfl | rfl | rfl | rfl
      · exact ih hu (.round :: inner) hbehind
      · exact absurd List.mem_cons_self h
      · exact ih hu (.square :: inner) hbehind
      · rw [openBehind] at hbehind
        cases inner with
        | nil => simp at hbehind
        | cons bracket inner =>
          split at hbehind
          · exact ih hu inner hbehind
          · simp at hbehind
    · rw [openBehind_cons_of_ne hc] at hbehind
      exact ih hu inner hbehind

/-- An open parenthesis is closed in a text behind which no bracket is open. -/
theorem mem_of_openBehind {u : List Char} {brackets : List Bracket}
    (h : openBehind (.round :: brackets) u = some []) : ')' ∈ u := by
  by_contra hmem
  obtain ⟨inner, hinner⟩ := openBehind_of_not_mem hmem [] brackets h
  simp at hinner

end Text

namespace Token

open Text

/-- The brackets that are open for a reader behind a token stay among those that its
lexeme leaves open. -/
def Follows (token : Token) (lexeme : List Char) : Prop :=
  ∀ ⦃brackets behind open' : List Bracket⦄, openBehind brackets lexeme = some behind →
    open'.Sublist brackets → (token.nest open').Sublist behind

theorem follows_of_not_bracket {token : Token} {lexeme : List Char}
    (hopened : token.opened? = none) (hclosed : token.closed? = none)
    (h : ∀ c ∈ lexeme, ¬IsBracket c) : token.Follows lexeme := by
  intro brackets behind open' hbehind hsub
  rw [openBehind_of_not_bracket h, Option.some.injEq] at hbehind
  rw [← hbehind]
  unfold nest
  rw [hopened, hclosed]
  exact hsub

theorem follows_of_opened {token : Token} {bracket : Bracket} (h : token.opened? = some bracket)
    {lexeme : List Char}
    (hlexeme : ∀ brackets, openBehind brackets lexeme = some (bracket :: brackets)) :
    token.Follows lexeme := by
  intro brackets behind open' hbehind hsub
  rw [hlexeme, Option.some.injEq] at hbehind
  rw [← hbehind]
  unfold nest
  rw [h]
  exact hsub.cons_cons bracket

theorem follows_closing {bracket : Bracket} {c : Char}
    (hlexeme : ∀ brackets, openBehind brackets [c] =
      if brackets.head? = some bracket then some brackets.tail else none) :
    (closing bracket).Follows [c] := by
  intro brackets behind open' hbehind hsub
  rw [hlexeme] at hbehind
  split at hbehind
  · rename_i hhead
    obtain ⟨outer, rfl⟩ := List.head?_eq_some_iff.mp hhead
    rw [List.tail_cons, Option.some.injEq] at hbehind
    subst hbehind
    cases open' with
    | nil => exact List.nil_sublist _
    | cons innermost open' =>
      by_cases heq : bracket = innermost
      · subst heq
        simpa [nest, opened?, closed?] using hsub
      · have : ((closing bracket).nest (innermost :: open')) = innermost :: open' := by
          simp [nest, opened?, closed?, heq]
        rw [this]
        cases hsub with
        | cons _ hsub => exact hsub
        | cons_cons _ _ => exact absurd rfl heq
  · simp at hbehind

/-- An address closes its parenthesis and brackets that were opened in it, and no others. -/
theorem follows_url {address : Address} {name inside : List Char}
    (hname : ∀ c ∈ name, ¬IsBracket c) (hinside : ')' ∉ inside) :
    (url address).Follows (name ++ '(' :: (inside ++ [')'])) := by
  intro brackets behind open' hbehind hsub
  rw [openBehind_append, openBehind_of_not_bracket hname, Option.bind_some, openBehind,
    openBehind_append] at hbehind
  obtain ⟨between, hbetween, hclose⟩ := Option.bind_eq_some_iff.mp hbehind
  obtain ⟨inner, rfl⟩ := openBehind_of_not_mem hinside [] brackets hbetween
  have hopen : ((url address).nest open') = open' := by
    simp [nest, opened?, closed?]
  rw [hopen]
  rw [openBehind] at hclose
  split at hclose
  · rw [openBehind, Option.some.injEq] at hclose
    rw [← hclose]
    cases inner with
    | nil => exact hsub
    | cons bracket inner =>
      exact hsub.trans ((List.sublist_cons_self _ _).trans (List.sublist_append_right _ _))
  · simp at hclose

end Token

open Text

variable {d : Char} {r u : List Char}

/-- What is scanned off a text without the character behind it is a front of the text. -/
theorem Scan.Splits.exists_of_not_mem {α : Type} {s : Scan α} (h : s.Splits (u ++ d :: r))
    (hd : d ∉ s.lexeme) : ∃ u', u = s.lexeme ++ u' ∧ s.rest = u' ++ d :: r := by
  rcases List.append_eq_append_iff.mp h with ⟨u', hu, hrest⟩ | ⟨u', hu, hrest⟩
  · exact ⟨u', hu, hrest⟩
  · cases u' with
    | nil => exact ⟨[], by simpa using hu.symm, by simpa using hrest.symm⟩
    | cons c u' =>
      obtain ⟨rfl, -⟩ := List.cons.inj hrest
      exact absurd (by simp [hu]) hd

theorem Name.scan_append (hpart : Name.isPart d = false) (hd : d ≠ '\\') (hu : '\\' ∉ u) :
    Name.scan (u ++ d :: r) = ⟨u.takeWhile Name.isPart,
      (u.takeWhile Name.isPart).map Escape.shown, u.dropWhile Name.isPart ++ d :: r⟩ := by
  induction u with
  | nil =>
    rw [List.nil_append, Name.scan, if_neg (by simp [hpart]), if_neg fun h => hd h.1]
    rfl
  | cons c u ih =>
    have hc : c ≠ '\\' := fun h => hu (h ▸ List.mem_cons_self)
    rw [List.cons_append, Name.scan]
    by_cases hname : Name.isPart c
    · rw [if_pos hname, ih fun hmem => hu (List.mem_cons_of_mem _ hmem),
        List.takeWhile_cons_of_pos hname, List.dropWhile_cons_of_pos hname]
      rfl
    · rw [if_neg hname, if_neg fun h => hc h.1, List.takeWhile_cons_of_neg hname,
        List.dropWhile_cons_of_neg hname]
      rfl

/-- No edge stands in a name. -/
theorem Name.not_isBracket_of_mem_takeWhile {c : Char}
    (h : c ∈ u.takeWhile Name.isPart) : ¬IsBracket c := by
  intro hc
  have := List.all_eq_true.mp List.all_takeWhile c h
  rw [hc.isEdge.isPart_eq] at this
  cases this

namespace Address

theorem scanBroken_append (hclose : ')' ∉ u) (hu : '\\' ∉ u) :
    scanBroken (u ++ ')' :: r) = ⟨u ++ [')'], u, r⟩ := by
  induction u with
  | nil => rfl
  | cons c u ih =>
    rw [List.cons_append, scanBroken, ih (fun hmem => hclose (List.mem_cons_of_mem _ hmem))
      fun hmem => hu (List.mem_cons_of_mem _ hmem)]
    · rfl
    · rintro rfl
      exact hclose List.mem_cons_self
    · rintro _ rfl
      exact absurd List.mem_cons_self hu
    · rintro _ rfl
      exact absurd List.mem_cons_self hu

theorem exists_broken_append (written : List Char) (hclose : ')' ∉ u) (hu : '\\' ∉ u) :
    ∃ address, broken written (u ++ ')' :: r) = ⟨written ++ (u ++ [')']), address, r⟩ := by
  rw [broken, scanBroken_append hclose hu]
  exact ⟨_, rfl⟩

theorem exists_scanEnd_append (hclose : ')' ∉ u) (hu : '\\' ∉ u) :
    ∃ address, scanEnd (u ++ ')' :: r) = ⟨u ++ [')'], address, r⟩ := by
  have hsplit := List.takeWhile_append_dropWhile (p := isSpace) (l := u)
  have htake : (u ++ ')' :: r).takeWhile isSpace = u.takeWhile isSpace :=
    takeWhile_append_cons rfl u r
  have hdrop : (u ++ ')' :: r).dropWhile isSpace = u.dropWhile isSpace ++ ')' :: r :=
    dropWhile_append_cons rfl u r
  cases hbehind : u.dropWhile isSpace with
  | nil =>
    rw [hbehind] at hdrop hsplit
    rw [List.append_nil] at hsplit
    exact ⟨_, by rw [scanEnd_of_close hdrop, htake, hsplit]⟩
  | cons c v =>
    rw [hbehind, List.cons_append] at hdrop
    rw [hbehind] at hsplit
    have hmem : ∀ c' ∈ c :: v, c' ∈ u := fun c' h => hsplit ▸ List.mem_append_right _ h
    have hc : c ≠ ')' := fun h => hclose (h ▸ hmem c List.mem_cons_self)
    obtain ⟨address, hbroken⟩ := exists_broken_append (r := r) (u.takeWhile isSpace ++ [c])
      (fun h => hclose (hmem _ (List.mem_cons_of_mem _ h)))
      fun h => hu (hmem _ (List.mem_cons_of_mem _ h))
    refine ⟨address, ?_⟩
    have hscan := scanEnd_of_ne hdrop hc
    rw [hscan, htake, hbroken, ← List.append_assoc, List.append_assoc _ [c],
      List.singleton_append, hsplit]

/-- An address without quotes ends at the first closing parenthesis. -/
theorem exists_scanBody_append (hclose : ')' ∉ u) (hu : '\\' ∉ u) :
    ∃ address, scanBody (u ++ ')' :: r) = ⟨u ++ [')'], address, r⟩ := by
  induction u with
  | nil => exact ⟨_, by rw [List.nil_append, scanBody, if_pos rfl]; rfl⟩
  | cons c u ih =>
    have hclose' : ')' ∉ u := fun hmem => hclose (List.mem_cons_of_mem _ hmem)
    have hu' : '\\' ∉ u := fun hmem => hu (List.mem_cons_of_mem _ hmem)
    have hc : c ≠ ')' := fun h => hclose (h ▸ List.mem_cons_self)
    have hb : c ≠ '\\' := fun h => hu (h ▸ List.mem_cons_self)
    rw [List.cons_append, scanBody, if_neg hc, if_neg hb]
    split
    · exact exists_scanEnd_append hclose hu
    · split
      · exact exists_broken_append [c] hclose' hu'
      · obtain ⟨address, hbody⟩ := ih hclose' hu'
        rw [hbody]
        exact ⟨_, rfl⟩

theorem exists_scan?_append (hclose : ')' ∉ u) (hu : ∀ c ∈ u, isTame c) :
    ∃ address, scan? (u ++ ')' :: r) = some ⟨u ++ [')'], address, r⟩ := by
  have hsplit := List.takeWhile_append_dropWhile (p := isSpace) (l := u)
  have hmem : ∀ c' ∈ u.dropWhile isSpace, c' ∈ u := fun c' h =>
    hsplit ▸ List.mem_append_right _ h
  have hb : '\\' ∉ u.dropWhile isSpace := fun h => absurd (hu _ (hmem _ h)) (by decide)
  obtain ⟨address, hbody⟩ := exists_scanBody_append (r := r) (fun h => hclose (hmem _ h)) hb
  have hscan := scan?_of_not_quote (dropWhile_append_cons rfl u r :
    (u ++ ')' :: r).dropWhile isSpace = u.dropWhile isSpace ++ ')' :: r) (by
      intro c cs heq
      cases hbehind : u.dropWhile isSpace with
      | nil =>
        rw [hbehind] at heq
        obtain ⟨rfl, -⟩ := List.cons.inj heq
        decide
      | cons c' v =>
        rw [hbehind] at heq
        obtain ⟨rfl, -⟩ := List.cons.inj heq
        have := hu c' (hmem c' (hbehind ▸ List.mem_cons_self))
        constructor <;> rintro rfl <;> exact absurd this (by decide))
  refine ⟨address, ?_⟩
  rw [hscan, hbody, takeWhile_append_cons rfl]
  simp [Scan.behind, ← List.append_assoc, hsplit]

end Address

namespace Text.IsTame

theorem of_append_right {v : List Char} (h : IsTame (u ++ v)) : IsTame v :=
  ⟨fun c hc => h.chars c (List.mem_append_right _ hc), h.noComment.right_of_append⟩

theorem not_mem {c : Char} (h : IsTame u) (hc : isTame c = false) : c ∉ u := fun hmem => by
  rw [h.chars c hmem] at hc
  cases hc

end Text.IsTame

namespace Token

/-- A token is read inside the tame text `u`, in front of `rest`. -/
structure Inside (u rest : List Char) (t : Scan Token) : Prop where
  exists_eq : ∃ u', u = t.lexeme ++ u' ∧ t.rest = u' ++ rest
  follows : t.value.Follows t.lexeme
  not_comment : ∀ body, t.value ≠ .comment body

theorem inside_scanNumeric (hd : IsHard d) (hu : IsTame u) :
    Inside u (d :: r) (scanNumeric (u ++ d :: r)) := by
  obtain ⟨v, hv, hrest⟩ := (Numeric.splits_scan (u ++ d :: r)).exists_of_not_mem
    (Numeric.not_mem_extent hd.isEdge _)
  have hlexeme : ∀ c ∈ (Numeric.scan (u ++ d :: r)).lexeme, ¬IsBracket c :=
    fun c hc hbracket => Numeric.not_mem_extent hbracket.isEdge _ hc
  have htame : IsTame v := (hv ▸ hu).of_append_right
  by_cases hpercent : ∃ cs, (Numeric.scan (u ++ d :: r)).rest = '%' :: cs
  · obtain ⟨cs, hcs⟩ := hpercent
    rw [scanNumeric_of_percent hcs]
    rw [hcs] at hrest
    cases v with
    | nil => exact absurd (List.cons.inj hrest).1.symm (hd.ne (by decide))
    | cons c v =>
      obtain ⟨rfl, rfl⟩ := List.cons.inj hrest
      refine ⟨⟨v, by rw [List.append_assoc]; exact hv, rfl⟩,
        follows_of_not_bracket rfl rfl fun c hc => ?_, fun _ h => by cases h⟩
      rcases List.mem_append.mp hc with hc | hc
      · exact hlexeme c hc
      · rw [List.mem_singleton.mp hc]
        simp [IsBracket]
  · rw [scanNumeric_of_ne fun cs hcs => hpercent ⟨cs, hcs⟩, hrest,
      Name.scan_append hd.isPart_eq (hd.ne (by decide)) (htame.not_mem rfl)]
    split
    · refine ⟨⟨v.dropWhile Name.isPart, ?_, rfl⟩,
        follows_of_not_bracket rfl rfl fun c hc => ?_, fun _ h => by cases h⟩
      · rw [Scan.lexeme_behind, List.append_assoc, List.takeWhile_append_dropWhile]
        exact hv
      · rcases List.mem_append.mp hc with hc | hc
        · exact hlexeme c hc
        · exact Name.not_isBracket_of_mem_takeWhile hc
    · exact ⟨⟨v, hv, hrest⟩, follows_of_not_bracket rfl rfl hlexeme, fun _ h => by cases h⟩

/-- In tame text that closes its brackets, a bracket behind a name is closed. -/
theorem exists_closed_behind_name (hu : IsTame u) {name v : List Char}
    (hsplit : name ++ '(' :: v = u) (hname : ∀ c ∈ name, ¬IsBracket c) {brackets : List Bracket}
    (hopen : openBehind brackets u = some []) :
    ∃ inside w, v = inside ++ ')' :: w ∧ ')' ∉ inside ∧ ∀ c ∈ inside, isTame c := by
  have hclose : ')' ∈ v := by
    rw [← hsplit, openBehind_append, openBehind_of_not_bracket hname] at hopen
    exact mem_of_openBehind hopen
  obtain ⟨inside, w, rfl, hinside⟩ := List.eq_append_cons_of_mem hclose
  exact ⟨inside, w, rfl, hinside, fun c hmem => hu.chars c
    (hsplit ▸ List.mem_append_right _ (List.mem_cons_of_mem _ (List.mem_append_left _ hmem)))⟩

theorem inside_scanNamed (hd : IsHard d) (hu : IsTame u) {brackets : List Bracket}
    (hopen : openBehind brackets u = some []) : Inside u (d :: r) (scanNamed (u ++ d :: r)) := by
  have hsplit := List.takeWhile_append_dropWhile (p := Name.isPart) (l := u)
  have hname : ∀ c ∈ u.takeWhile Name.isPart, ¬IsBracket c :=
    fun c => Name.not_isBracket_of_mem_takeWhile
  have hscan := Name.scan_append (r := r) hd.isPart_eq (hd.ne (by decide)) (hu.not_mem rfl)
  cases hbehind : u.dropWhile Name.isPart with
  | nil =>
    rw [hbehind] at hscan hsplit
    rw [scanNamed_of_ne, hscan]
    · exact ⟨⟨[], hsplit.symm, rfl⟩, follows_of_not_bracket rfl rfl hname, fun _ h => by cases h⟩
    · rw [hscan]
      intro cs heq
      exact absurd (List.cons.inj heq).1 (hd.ne (by decide))
  | cons c v =>
    rw [hbehind] at hscan hsplit
    by_cases hc : c = '('
    · subst hc
      have hrest : (Name.scan (u ++ d :: r)).rest = '(' :: (v ++ d :: r) := by rw [hscan]; rfl
      have hfunction : Inside u (d :: r) ⟨(Name.scan (u ++ d :: r)).lexeme ++ ['('],
          function (Name.scan (u ++ d :: r)).value, v ++ d :: r⟩ := by
        rw [hscan]
        refine ⟨⟨v, by rw [List.append_assoc]; exact hsplit.symm, rfl⟩,
          follows_of_opened rfl fun brackets => ?_, fun _ h => by cases h⟩
        rw [openBehind_append, openBehind_of_not_bracket hname]
        rfl
      rw [scanNamed_of_open hrest]
      split
      · obtain ⟨inside, w, rfl, hinside, hin⟩ := exists_closed_behind_name hu hsplit hname hopen
        obtain ⟨address, haddress⟩ :=
          Address.exists_scan?_append (r := w ++ d :: r) hinside hin
        rw [List.append_assoc, List.cons_append, haddress]
        have hlexeme : (Name.scan (u ++ d :: r)).lexeme ++ ['('] ++ (inside ++ [')']) =
            u.takeWhile Name.isPart ++ '(' :: (inside ++ [')']) := by rw [hscan]; simp
        refine ⟨⟨w, ?_, rfl⟩, ?_, fun _ h => by cases h⟩
        · rw [Scan.lexeme_behind, hlexeme, List.append_assoc]
          simpa using hsplit.symm
        · rw [Scan.lexeme_behind, hlexeme]
          exact follows_url hname hinside
      · exact hfunction
    · rw [scanNamed_of_ne, hscan]
      · exact ⟨⟨c :: v, hsplit.symm, rfl⟩, follows_of_not_bracket rfl rfl hname,
          fun _ h => by cases h⟩
      · rw [hscan]
        intro cs heq
        exact absurd (List.cons.inj heq).1 hc

theorem follows_ofChar {c : Char} (hc : isTame c) : (ofChar c).Follows [c] := by
  by_cases hbracket : IsBracket c
  · simp only [IsBracket, List.mem_cons, List.not_mem_nil, or_false] at hbracket
    rcases hbracket with rfl | rfl | rfl | rfl
    · exact follows_of_opened rfl fun _ => rfl
    · exact follows_closing fun _ => rfl
    · exact follows_of_opened rfl fun _ => rfl
    · exact follows_closing fun _ => rfl
  · have hvalue : ofChar c = .delimiter c := by
      unfold ofChar
      split <;> simp_all [IsBracket, isTame]
    rw [hvalue]
    refine follows_of_not_bracket rfl rfl fun c' hc' => ?_
    rw [List.mem_singleton.mp hc']
    exact hbracket

theorem inside_scanSign (hd : IsHard d) {c : Char} (hu : IsTame (c :: u)) :
    Inside (c :: u) (d :: r) (scanSign c (u ++ d :: r)) := by
  have hsplit := List.takeWhile_append_dropWhile (p := Name.isPart) (l := u)
  have hc := hu.chars c List.mem_cons_self
  have hscan := Name.scan_append (r := r) hd.isPart_eq (hd.ne (by decide))
    ((IsTame.of_append_right (u := [c]) hu).not_mem rfl : '\\' ∉ u)
  have hnamed : ∀ {value : List Char → Token}, c ∈ ['#', '@'] →
      (∀ name, (value name).opened? = none ∧ (value name).closed? = none ∧
        ∀ body, value name ≠ .comment body) →
      Inside (c :: u) (d :: r) ((Name.scan (u ++ d :: r)).behind [c] value) := by
    intro value hsign hvalue
    rw [hscan]
    refine ⟨⟨u.dropWhile Name.isPart, ?_, rfl⟩,
      follows_of_not_bracket (hvalue _).1 (hvalue _).2.1 fun c' hc' => ?_, (hvalue _).2.2⟩
    · rw [Scan.lexeme_behind, List.append_assoc, hsplit]
      rfl
    · rcases List.mem_cons.mp hc' with rfl | hc'
      · simp only [List.mem_cons, List.not_mem_nil, or_false] at hsign
        rcases hsign with rfl | rfl <;> simp [IsBracket]
      · exact Name.not_isBracket_of_mem_takeWhile hc'
  have hsingle : Inside (c :: u) (d :: r) ⟨[c], ofChar c, u ++ d :: r⟩ :=
    ⟨⟨u, rfl, rfl⟩, follows_ofChar hc, ofChar_ne_comment c⟩
  by_cases hhash : c = '#' ∧ Name.startsHash (u ++ d :: r)
  · rw [scanSign_of_hash hhash]
    exact hnamed (by simp [hhash.1]) fun _ => ⟨rfl, rfl, fun _ h => by cases h⟩
  by_cases hat : c = '@' ∧ Name.starts (u ++ d :: r)
  · rw [scanSign_of_at hhash hat]
    exact hnamed (by simp [hat.1]) fun _ => ⟨rfl, rfl, fun _ h => by cases h⟩
  by_cases hequals : ∃ v, u = '=' :: v
  · obtain ⟨v, rfl⟩ := hequals
    rw [List.cons_append] at hhash hat hsingle ⊢
    rw [scanSign_of_equals hhash hat]
    split
    · rename_i hsign
      refine ⟨⟨v, rfl, rfl⟩, follows_of_not_bracket rfl rfl fun c' hc' => ?_, fun _ h => by cases h⟩
      rcases List.mem_cons.mp hc' with rfl | hc'
      · simp only [List.mem_cons, List.not_mem_nil, or_false] at hsign
        rcases hsign with rfl | rfl | rfl | rfl | rfl <;> simp [IsBracket]
      · rw [List.mem_singleton.mp hc']
        simp [IsBracket]
    · exact hsingle
  · rw [scanSign_of_ne hhash hat]
    · exact hsingle
    · intro rest heq
      cases u with
      | nil => exact absurd (List.cons.inj heq).1 (hd.ne (by decide))
      | cons c' v => exact hequals ⟨v, by rw [(List.cons.inj heq).1]⟩

theorem inside_scanFirst (hd : IsHard d) {c : Char} (hu : IsTame (c :: u))
    {brackets : List Bracket} (hopen : openBehind brackets (c :: u) = some []) :
    Inside (c :: u) (d :: r) (scanFirst c (u ++ d :: r)) := by
  have hc := hu.chars c List.mem_cons_self
  unfold scanFirst
  split
  · have htake := takeWhile_append_cons hd.isSpace_eq (c :: u) r
    have hdrop := dropWhile_append_cons hd.isSpace_eq (c :: u) r
    refine ⟨⟨(c :: u).dropWhile isSpace, ?_, hdrop⟩,
      follows_of_not_bracket rfl rfl fun c' hc' => ?_, fun _ h => by cases h⟩
    · rw [Scan.lexeme_map, Scan.takeWhile]
      exact (htake ▸ List.takeWhile_append_dropWhile.symm)
    · have hspace := List.all_eq_true.mp List.all_takeWhile c' hc'
      rintro hbracket
      simp only [IsBracket, List.mem_cons, List.not_mem_nil, or_false] at hbracket
      rcases hbracket with rfl | rfl | rfl | rfl <;> cases hspace
  · rw [if_neg (by rintro (rfl | rfl) <;> cases hc)]
    split
    · exact inside_scanNumeric hd hu
    · split
      · exact inside_scanNamed hd hu hopen
      · exact inside_scanSign hd hu

/-- The first token of tame text with nested brackets is read inside the text. -/
theorem exists_inside (hd : IsHard d) (hu : IsTame u) (hne : u ≠ []) {brackets : List Bracket}
    (hopen : openBehind brackets u = some []) :
    ∃ t, scan? (u ++ d :: r) = some t ∧ Inside u (d :: r) t := by
  obtain ⟨c, v, rfl⟩ := List.exists_cons_of_ne_nil hne
  have hmarkup : ∀ {t : Scan Token}, t.Splits (c :: v ++ d :: r) → d ∉ t.lexeme →
      t.value.opened? = none → t.value.closed? = none → (∀ c ∈ t.lexeme, ¬IsBracket c) →
      (∀ body, t.value ≠ .comment body) → Inside (c :: v) (d :: r) t :=
    fun hsplits hmem hopened hclosed hlexeme hcomment =>
      ⟨hsplits.exists_of_not_mem hmem, follows_of_not_bracket hopened hclosed hlexeme, hcomment⟩
  by_cases hopening : ∃ rest, c :: v ++ d :: r = '<' :: '!' :: '-' :: '-' :: rest
  · obtain ⟨rest, heq⟩ := hopening
    refine ⟨⟨['<', '!', '-', '-'], markupOpening, rest⟩, by rw [heq]; rfl,
      hmarkup heq.symm ?_ rfl rfl ?_ fun _ h => by cases h⟩
    · rcases hd with rfl | rfl | rfl <;> simp
    · simp [IsBracket]
  by_cases hclosing : ∃ rest, c :: v ++ d :: r = '-' :: '-' :: '>' :: rest
  · obtain ⟨rest, heq⟩ := hclosing
    refine ⟨⟨['-', '-', '>'], markupClosing, rest⟩, by rw [heq]; rfl,
      hmarkup heq.symm ?_ rfl rfl ?_ fun _ h => by cases h⟩
    · rcases hd with rfl | rfl | rfl <;> simp
    · simp [IsBracket]
  refine ⟨scanFirst c (v ++ d :: r), scan?_cons (fun rest heq => ?_)
    (fun rest heq => hopening ⟨rest, heq⟩) (fun rest heq => hclosing ⟨rest, heq⟩),
    inside_scanFirst hd hu hopen⟩
  obtain ⟨hc, hbehind⟩ := List.cons.inj heq
  cases v with
  | nil => exact hd.ne (by decide) (List.cons.inj hbehind).1
  | cons c' v =>
    exact (List.isChain_cons_cons.mp hu.noComment).1 ⟨hc, (List.cons.inj hbehind).1⟩

end Token

/-- The brackets that a reader has opened inside tame text are closed inside it. -/
theorem exists_scanBrackets_append (hd : IsHard d) (hu : IsTame u) {brackets open' : List Bracket}
    (hopen : openBehind brackets u = some []) (hsub : open'.Sublist brackets) :
    ∃ u' between, u = (scanBrackets open' (u ++ d :: r)).lexeme ++ u' ∧
      (scanBrackets open' (u ++ d :: r)).rest = u' ++ d :: r ∧
      openBehind between u' = some [] := by
  induction hlength : u.length using Nat.strongRecOn generalizing u brackets open' with
  | ind n ih =>
    unfold scanBrackets
    split
    · exact ⟨u, brackets, rfl, rfl, hopen⟩
    · rename_i hempty
      have hne : u ≠ [] := by
        rintro rfl
        rw [openBehind, Option.some.injEq] at hopen
        subst hopen
        rw [List.sublist_nil.mp hsub] at hempty
        exact hempty rfl
      obtain ⟨t, ht, hinside⟩ := Token.exists_inside (r := r) hd hu hne hopen
      obtain ⟨v, hv, hrest⟩ := hinside.exists_eq
      have htoken := Token.lexeme_ne_nil_of_scan?_eq_some ht
      split
      · simp_all
      · rename_i t' ht'
        obtain rfl : t = t' := Option.some.inj (ht.symm.trans ht')
        rw [hv, openBehind_append] at hopen
        obtain ⟨between, hbetween, hopen⟩ := Option.bind_eq_some_iff.mp hopen
        obtain ⟨u', between', hu', hrest', hopen'⟩ := ih v.length (by
            rw [← hlength, hv, List.length_append]
            have := List.length_pos_iff.mpr htoken
            omega)
          (hv ▸ hu).of_append_right hopen (hinside.follows hbetween hsub) rfl
        refine ⟨u', between', ?_, ?_, hopen'⟩
        · rw [Scan.lexeme_behind, hrest, List.append_assoc, ← hu']
          exact hv
        · rw [Scan.rest_behind, hrest, hrest']

namespace Prelude

theorem kept_of_not_comment {pieces : List Piece} (h : ∀ piece ∈ pieces, piece.kind ≠ .comment) :
    kept pieces = pieces.flatMap Piece.text := by
  have hfrom : ∀ previous, keptFrom previous pieces = pieces.flatMap Piece.text := by
    induction pieces with
    | nil => exact fun _ => rfl
    | cons piece pieces ih =>
      intro previous
      have hkind := h piece List.mem_cons_self
      rw [keptFrom, ih (fun p hp => h p (List.mem_cons_of_mem _ hp)), List.flatMap_cons]
      simp [hkind]
  exact hfrom none

/-- Tame text with nested brackets is a prelude in front of the end of a statement, and no
piece of it is a comment. -/
theorem exists_pieces (hd : IsHard d) {inBlock : Bool} (hends : endsBefore inBlock (d :: r))
    (hu : IsTame u) {brackets : List Bracket} (hopen : openBehind brackets u = some []) :
    ∃ pieces, scan inBlock (u ++ d :: r) = ⟨u, pieces, d :: r⟩ ∧
      pieces.flatMap Piece.text = u ∧ ∀ piece ∈ pieces, piece.kind ≠ .comment := by
  induction hlength : u.length using Nat.strongRecOn generalizing u brackets with
  | ind n ih =>
    by_cases hne : u = []
    · subst hne
      exact ⟨[], scan_of_ends hends, rfl, by simp⟩
    · obtain ⟨t, ht, hinside⟩ := Token.exists_inside (r := r) hd hu hne hopen
      obtain ⟨v, hv, hrest⟩ := hinside.exists_eq
      have hfirst : endsBefore inBlock (u ++ d :: r) = false := by
        obtain ⟨c, w, rfl⟩ := List.exists_cons_of_ne_nil hne
        have := hu.chars c List.mem_cons_self
        simp only [isTame, Bool.not_eq_true', Bool.or_eq_false_iff] at this
        simp [endsBefore, this]
      rw [hv, openBehind_append] at hopen
      obtain ⟨between, hbetween, hopen⟩ := Option.bind_eq_some_iff.mp hopen
      have hsub := hinside.follows hbetween (List.nil_sublist _)
      rw [Token.nest_nil] at hsub
      have htame : IsTame v := (hv ▸ hu).of_append_right
      obtain ⟨u', between', hu', hrest', hopen'⟩ :=
        exists_scanBrackets_append (r := r) hd htame hopen hsub
      have htoken := Token.lexeme_ne_nil_of_scan?_eq_some ht
      obtain ⟨pieces, hscan, htext, hkind⟩ := ih u'.length (by
          rw [← hlength, hv, hu', List.length_append, List.length_append]
          have := List.length_pos_iff.mpr htoken
          omega)
        (hu' ▸ htame).of_append_right hopen' rfl
      have hlexeme : t.lexeme ++ (scanBrackets t.value.opened?.toList (v ++ d :: r)).lexeme ++ u' =
          u := by
        rw [List.append_assoc, ← hu']
        exact hv.symm
      refine ⟨⟨t.value.pieceKind,
        t.lexeme ++ (scanBrackets t.value.opened?.toList (v ++ d :: r)).lexeme⟩ :: pieces,
        ?_, ?_, ?_⟩
      · rw [scan_of_token hfirst ht, hrest, hrest', hscan, Scan.behind, hlexeme]
      · rw [List.flatMap_cons, htext, hlexeme]
      · intro piece hpiece
        rcases List.mem_cons.mp hpiece with rfl | hpiece
        · intro hcomment
          obtain ⟨body, hbody⟩ := Token.exists_of_pieceKind hcomment
          exact hinside.not_comment body hbody
        · exact hkind piece hpiece

/-- Tame text with nested brackets is what is kept of a prelude. -/
theorem exists_scan_append (hd : IsHard d) {inBlock : Bool} (hends : endsBefore inBlock (d :: r))
    (hu : IsTame u) (hnested : IsNested u) :
    ∃ pieces, scan inBlock (u ++ d :: r) = ⟨u, pieces, d :: r⟩ ∧ kept pieces = u := by
  obtain ⟨pieces, hscan, htext, hkind⟩ := exists_pieces hd hends hu hnested
  exact ⟨pieces, hscan, (kept_of_not_comment hkind).trans htext⟩

end Prelude

end Typography
