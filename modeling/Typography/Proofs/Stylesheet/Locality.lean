import Typography.Proofs.Token.Locality

/-!
# What a prelude does not look at

A token that leaves the end of a text is the same with another end in its place, if it is
sure to end there, `Token.Leaves`. Brackets that are closed before the end make sure of
their tokens, so the pieces of a prelude that ends before a semicolon or a curly bracket
are the same whatever stands behind this character.
-/

namespace Typography

open Text

variable {d : Char} {X Y x y : List Char}

namespace Token

theorem alike_scanComment (hj : Joint X Y) (h : SameBefore X Y x y)
    (hrest : X.length ≤ (scanComment x).rest.length) :
    Scan.Alike X Y (scanComment x) (scanComment y) := by
  fun_induction scanComment x generalizing y with
  | case1 => exact absurd rfl (h.ne_nil hj)
  | case2 cs =>
    obtain ⟨y', rfl, h'⟩ := h.exists_of_cons hj (by decide)
    obtain ⟨y'', rfl, -, h''⟩ := h'.exists_of_cons_of_le hrest
    exact ⟨rfl, rfl, h''⟩
  | case3 c cs hc ih =>
    have hle := (splits_scanComment cs).length_rest_le
    obtain ⟨y', rfl, -, h'⟩ := h.exists_of_cons_of_le (Nat.le_trans hrest hle)
    rw [scanComment]
    · exact (ih h' hrest).behind _ _
    · rintro cs' rfl rfl
      cases h' with
      | here =>
        cases hj with
        | same hd r r' => exact hc r rfl rfl
        | gap he r r' => exact absurd he (by decide)
      | cons _ _ h' => exact hc _ rfl rfl

theorem scanNumeric_of_percent {text cs : List Char} (h : (Numeric.scan text).rest = '%' :: cs) :
    scanNumeric text = ⟨(Numeric.scan text).lexeme ++ ['%'],
      percentage (Numeric.scan text).value, cs⟩ := by
  unfold scanNumeric
  dsimp only
  rw [h]
  rfl

theorem scanNumeric_of_ne {text : List Char} (h : ∀ cs, (Numeric.scan text).rest ≠ '%' :: cs) :
    scanNumeric text =
      if Name.starts (Numeric.scan text).rest then
        (Name.scan (Numeric.scan text).rest).behind (Numeric.scan text).lexeme
          (dimension (Numeric.scan text).value)
      else (Numeric.scan text).map number := by
  unfold scanNumeric
  dsimp only
  split
  · exact absurd ‹_› (h _)
  · rfl

theorem alike_scanNumeric (hj : Joint X Y) (h : SameBefore X Y x y)
    (hrest : X.length ≤ (scanNumeric x).rest.length) :
    Scan.Alike X Y (scanNumeric x) (scanNumeric y) := by
  have hn := Numeric.alike_scan hj h
  by_cases hpercent : ∃ cs, (Numeric.scan x).rest = '%' :: cs
  · obtain ⟨cs, hx⟩ := hpercent
    obtain ⟨cs', hy, hcs⟩ := (hx ▸ hn.rest).exists_of_cons hj (by decide)
    rw [scanNumeric_of_percent hx, scanNumeric_of_percent hy, hn.lexeme_eq, hn.value_eq]
    exact ⟨rfl, rfl, hcs⟩
  · have hx : ∀ cs, (Numeric.scan x).rest ≠ '%' :: cs := fun cs heq => hpercent ⟨cs, heq⟩
    have hy : ∀ cs, (Numeric.scan y).rest ≠ '%' :: cs := fun cs heq => by
      obtain ⟨cs', heq', -⟩ := (heq ▸ hn.rest).exists_of_cons_right hj (by decide)
      exact hx cs' heq'
    rw [scanNumeric_of_ne hx] at hrest ⊢
    rw [scanNumeric_of_ne hy, ← Name.starts_eq hj hn.rest, ← hn.lexeme_eq, ← hn.value_eq]
    split
    · rename_i hstarts
      rw [if_pos hstarts] at hrest
      exact (Name.alike_scan hj hn.rest hrest).behind _ _
    · exact hn.map _

theorem scanNamed_of_open {text cs : List Char} (h : (Name.scan text).rest = '(' :: cs) :
    scanNamed text =
      if (Name.scan text).value.map Char.toLower = ['u', 'r', 'l'] then
        match Address.scan? cs with
        | some address => address.behind ((Name.scan text).lexeme ++ ['(']) url
        | none => ⟨(Name.scan text).lexeme ++ ['('], function (Name.scan text).value, cs⟩
      else ⟨(Name.scan text).lexeme ++ ['('], function (Name.scan text).value, cs⟩ := by
  unfold scanNamed
  dsimp only
  rw [h]
  rfl

theorem scanNamed_of_ne {text : List Char} (h : ∀ cs, (Name.scan text).rest ≠ '(' :: cs) :
    scanNamed text = (Name.scan text).map identifier := by
  unfold scanNamed
  dsimp only
  split
  · exact absurd ‹_› (h _)
  · rfl

theorem length_rest_scanNamed_le (text : List Char) :
    (scanNamed text).rest.length ≤ (Name.scan text).rest.length := by
  by_cases hopen : ∃ cs, (Name.scan text).rest = '(' :: cs
  · obtain ⟨cs, hcs⟩ := hopen
    rw [scanNamed_of_open hcs, hcs]
    split
    · split
      · rename_i address haddress
        have := (Address.splits_of_scan?_eq_some haddress).length_rest_le
        simp only [Scan.rest_behind, List.length_cons]
        omega
      · simp
    · simp
  · rw [scanNamed_of_ne fun cs heq => hopen ⟨cs, heq⟩]
    simp

/-- A token leaves the end `X` of a text, and is sure to end with `Y` in its place: it is no
whitespace that goes on there, no quoted text that is not broken off there, and no function
that may become an address there. -/
structure Leaves (X Y : List Char) (s : Scan Token) : Prop where
  length : X.length ≤ s.rest.length
  space : s.value = .space → s.rest = X → ∀ c ∈ Y.head?, isSpace c = false
  quoted : ∀ text, s.value = .quoted text → text.isBroken → s.rest = X → startsLineBreak X → Y ≠ []
  function : ∀ name, s.value = .function name →
    (∀ c ∈ X.head?, isSpace c = false) ∨ X.length < (s.rest.dropWhile isSpace).length

/-- Where no whitespace starts the ends, a token is sure to end before them. -/
theorem Leaves.of_not_space (hX : ∀ c ∈ X.head?, isSpace c = false)
    (hY : ∀ c ∈ Y.head?, isSpace c = false) {s : Scan Token} (h : X.length ≤ s.rest.length) :
    Leaves X Y s where
  length := h
  space _ _ := hY
  quoted _ _ _ _ hline := by
    cases X with
    | nil => cases hline
    | cons c cs =>
      have hc : isLineBreak c := hline
      have := hX c rfl
      simp [isSpace, hc] at this
  function _ _ := .inl hX

theorem alike_scanNamed (hj : Joint X Y) (h : SameBefore X Y x y)
    (hleaves : Leaves X Y (scanNamed x)) :
    Scan.Alike X Y (scanNamed x) (scanNamed y) := by
  have hrest := hleaves.length
  have hn := Name.alike_scan hj h (Nat.le_trans hrest (length_rest_scanNamed_le x))
  by_cases hopen : ∃ cs, (Name.scan x).rest = '(' :: cs
  · obtain ⟨cs, hx⟩ := hopen
    obtain ⟨cs', hy, hcs⟩ := (hx ▸ hn.rest).exists_of_cons hj (by decide)
    rw [scanNamed_of_open hx] at hrest hleaves ⊢
    rw [scanNamed_of_open hy, ← hn.lexeme_eq, ← hn.value_eq]
    split
    · rename_i hurl
      rw [if_pos hurl] at hrest hleaves
      have hlt : X.length < (cs.dropWhile isSpace).length := by
        cases haddress : Address.scan? cs with
        | some address =>
          rw [haddress] at hrest
          exact Address.lt_length_dropWhile_of_scan? hj.length_pos haddress hrest
        | none =>
          rw [haddress] at hleaves
          rcases hleaves.function _ rfl with hX | hlt
          · exact Address.lt_length_dropWhile_of_scan?_eq_none hj hX hcs haddress
          · exact hlt
      rcases Address.alike_scan? hj hcs hlt with ⟨hnone, hnone'⟩ | ⟨s, t, hs, ht, halike⟩
      · rw [hnone, hnone']
        exact ⟨rfl, rfl, hcs⟩
      · rw [hs] at hrest
        rw [hs, ht]
        exact (halike hrest).behind _ _
    · exact ⟨rfl, rfl, hcs⟩
  · have hx : ∀ cs, (Name.scan x).rest ≠ '(' :: cs := fun cs heq => hopen ⟨cs, heq⟩
    have hy : ∀ cs, (Name.scan y).rest ≠ '(' :: cs := fun cs heq => by
      obtain ⟨cs', heq', -⟩ := (heq ▸ hn.rest).exists_of_cons_right hj (by decide)
      exact hx cs' heq'
    rw [scanNamed_of_ne hx, scanNamed_of_ne hy]
    exact hn.map _

theorem scanSign_of_hash {c : Char} {cs : List Char} (h : c = '#' ∧ Name.startsHash cs) :
    scanSign c cs = (Name.scan cs).behind [c] fun name => hash name (Name.starts cs) := by
  unfold scanSign
  rw [if_pos h]

theorem scanSign_of_at {c : Char} {cs : List Char} (hhash : ¬(c = '#' ∧ Name.startsHash cs))
    (h : c = '@' ∧ Name.starts cs) :
    scanSign c cs = (Name.scan cs).behind [c] atKeyword := by
  unfold scanSign
  rw [if_neg hhash, if_pos h]

theorem scanSign_of_equals {c : Char} {rest : List Char}
    (hhash : ¬(c = '#' ∧ Name.startsHash ('=' :: rest)))
    (hat : ¬(c = '@' ∧ Name.starts ('=' :: rest))) :
    scanSign c ('=' :: rest) =
      if c ∈ ['~', '|', '^', '$', '*'] then ⟨[c, '='], comparison c, rest⟩
      else ⟨[c], ofChar c, '=' :: rest⟩ := by
  unfold scanSign
  rw [if_neg hhash, if_neg hat]
  rfl

theorem scanSign_of_ne {c : Char} {cs : List Char} (hhash : ¬(c = '#' ∧ Name.startsHash cs))
    (hat : ¬(c = '@' ∧ Name.starts cs)) (h : ∀ rest, cs ≠ '=' :: rest) :
    scanSign c cs = ⟨[c], ofChar c, cs⟩ := by
  unfold scanSign
  rw [if_neg hhash, if_neg hat]
  split
  · exact absurd rfl (h _)
  · rfl

theorem alike_scanSign (hj : Joint X Y) (c : Char) (h : SameBefore X Y x y)
    (hrest : X.length ≤ (scanSign c x).rest.length) :
    Scan.Alike X Y (scanSign c x) (scanSign c y) := by
  have hstarts := Name.starts_eq hj h
  have hhash := Name.startsHash_eq hj h
  by_cases h₁ : c = '#' ∧ Name.startsHash x
  · rw [scanSign_of_hash h₁] at hrest ⊢
    rw [scanSign_of_hash (hhash ▸ h₁), hstarts]
    exact (Name.alike_scan hj h hrest).behind _ _
  · by_cases h₂ : c = '@' ∧ Name.starts x
    · rw [scanSign_of_at h₁ h₂] at hrest ⊢
      rw [scanSign_of_at (hhash ▸ h₁) (hstarts ▸ h₂)]
      exact (Name.alike_scan hj h hrest).behind _ _
    · by_cases hequals : ∃ rest, x = '=' :: rest
      · obtain ⟨rest, rfl⟩ := hequals
        obtain ⟨rest', rfl, hsame⟩ := h.exists_of_cons hj (by decide)
        rw [scanSign_of_equals h₁ h₂, scanSign_of_equals (hhash ▸ h₁) (hstarts ▸ h₂)]
        split
        · exact ⟨rfl, rfl, hsame⟩
        · exact ⟨rfl, rfl, h⟩
      · have hx : ∀ rest, x ≠ '=' :: rest := fun rest heq => hequals ⟨rest, heq⟩
        have hy : ∀ rest, y ≠ '=' :: rest := fun rest heq => by
          subst heq
          obtain ⟨rest', heq', -⟩ := h.exists_of_cons_right hj (by decide)
          exact hx rest' heq'
        rw [scanSign_of_ne h₁ h₂ hx, scanSign_of_ne (hhash ▸ h₁) (hstarts ▸ h₂) hy]
        exact ⟨rfl, rfl, h⟩

/-- Reads a token by its first character, unless it is a comment or a sign of the
embedding markup. -/
def scanFirst (c : Char) (cs : List Char) : Scan Token :=
  if Text.isSpace c then (Scan.takeWhile Text.isSpace (c :: cs)).map fun _ => space
  else if c = '"' ∨ c = '\'' then (Quoted.scan c cs).behind [c] quoted
  else if (Numeric.extent (c :: cs)).isEmpty = false then scanNumeric (c :: cs)
  else if Name.starts (c :: cs) then scanNamed (c :: cs)
  else scanSign c cs

theorem scan?_cons {c : Char} {cs : List Char} (hcomment : ∀ rest, c :: cs ≠ '/' :: '*' :: rest)
    (hopening : ∀ rest, c :: cs ≠ '<' :: '!' :: '-' :: '-' :: rest)
    (hclosing : ∀ rest, c :: cs ≠ '-' :: '-' :: '>' :: rest) :
    scan? (c :: cs) = some (scanFirst c cs) := by
  unfold scan?
  split
  · simp_all
  · exact absurd ‹_› (hcomment _)
  · exact absurd ‹_› (hopening _)
  · exact absurd ‹_› (hclosing _)
  · rename_i heq
    obtain ⟨rfl, rfl⟩ := List.cons.inj heq
    rfl

/-- Whether a token is text of a statement and no bracket. -/
def isWord : Token → Bool
  | identifier _ | function _ | hash _ _ | quoted _ | url _ | number _ | percentage _
  | dimension _ _ | comparison _ => true
  | _ => false

theorem isWord_scanNumeric (text : List Char) : (scanNumeric text).value.isWord := by
  by_cases hpercent : ∃ rest, (Numeric.scan text).rest = '%' :: rest
  · obtain ⟨rest, hrest⟩ := hpercent
    rw [scanNumeric_of_percent hrest]
    rfl
  · rw [scanNumeric_of_ne fun rest hrest => hpercent ⟨rest, hrest⟩]
    split <;> rfl

theorem isWord_scanNamed (text : List Char) : (scanNamed text).value.isWord := by
  by_cases hopen : ∃ rest, (Name.scan text).rest = '(' :: rest
  · obtain ⟨rest, hrest⟩ := hopen
    rw [scanNamed_of_open hrest]
    split
    · split <;> rfl
    · rfl
  · rw [scanNamed_of_ne fun rest hrest => hopen ⟨rest, hrest⟩]
    rfl

/-- What a token can be by its first character. -/
theorem scanFirst_cases (c : Char) (cs : List Char) :
    (isSpace c ∧ (scanFirst c cs).value = space) ∨
      (c = '@' ∧ scanFirst c cs = (Name.scan cs).behind ['@'] atKeyword) ∨
      (scanFirst c cs).value = ofChar c ∨ (scanFirst c cs).value.isWord := by
  unfold scanFirst
  split
  · exact .inl ⟨‹_›, rfl⟩
  right
  split
  · exact .inr (.inr rfl)
  split
  · exact .inr (.inr (isWord_scanNumeric _))
  split
  · exact .inr (.inr (isWord_scanNamed _))
  by_cases hhash : c = '#' ∧ Name.startsHash cs
  · rw [scanSign_of_hash hhash]
    exact .inr (.inr rfl)
  by_cases hat : c = '@' ∧ Name.starts cs
  · rw [scanSign_of_at hhash hat, hat.1]
    exact .inl ⟨rfl, rfl⟩
  right
  by_cases hequals : ∃ rest, cs = '=' :: rest
  · obtain ⟨rest, rfl⟩ := hequals
    rw [scanSign_of_equals hhash hat]
    split
    · exact .inr rfl
    · exact .inl rfl
  · rw [scanSign_of_ne hhash hat fun rest heq => hequals ⟨rest, heq⟩]
    exact .inl rfl

/-- A token is a comment, a sign of the embedding markup, or known by its first character. -/
theorem scan?_cases {text : List Char} {t : Scan Token} (h : scan? text = some t) :
    (∃ cs, text = '/' :: '*' :: cs ∧ t = (scanComment cs).behind ['/', '*'] comment) ∨
      t.value = markupOpening ∨ t.value = markupClosing ∨
      ∃ c cs, text = c :: cs ∧ t = scanFirst c cs := by
  unfold scan? at h
  split at h
  · simp at h
  · exact .inl ⟨_, rfl, (Option.some.inj h).symm⟩
  · rw [← Option.some.inj h]
    exact .inr (.inl rfl)
  · rw [← Option.some.inj h]
    exact .inr (.inr (.inl rfl))
  · exact .inr (.inr (.inr ⟨_, _, rfl, (Option.some.inj h).symm⟩))

theorem ofChar_ne_comment (c : Char) (body : List Char) : ofChar c ≠ .comment body := by
  unfold ofChar
  split <;> simp

theorem ofChar_ne_atKeyword (c : Char) (name : List Char) : ofChar c ≠ .atKeyword name := by
  unfold ofChar
  split <;> simp

/-- A comment is what stands behind its opening. -/
theorem exists_of_comment {text body : List Char} {t : Scan Token} (ht : scan? text = some t)
    (h : t.value = .comment body) :
    ∃ cs, text = '/' :: '*' :: cs ∧ t = (scanComment cs).behind ['/', '*'] comment := by
  rcases scan?_cases ht with hcomment | hmarkup | hmarkup | ⟨c, cs, -, rfl⟩
  · exact hcomment
  · simp [hmarkup] at h
  · simp [hmarkup] at h
  · rcases scanFirst_cases c cs with ⟨-, hv⟩ | ⟨-, hv⟩ | hv | hv
    · simp [hv] at h
    · simp [hv] at h
    · exact absurd (hv.symm.trans h) (ofChar_ne_comment c body)
    · simp [h, isWord] at hv

theorem exists_of_pieceKind {token : Token} (h : token.pieceKind = .comment) :
    ∃ body, token = comment body := by
  cases token <;> simp_all [pieceKind]

/-- A keyword is a name behind `@`. -/
theorem exists_of_atKeyword {text name : List Char} {t : Scan Token} (ht : scan? text = some t)
    (h : t.value = .atKeyword name) :
    ∃ cs, text = '@' :: cs ∧ t = (Name.scan cs).behind ['@'] atKeyword := by
  rcases scan?_cases ht with ⟨cs, -, rfl⟩ | hmarkup | hmarkup | ⟨c, cs, rfl, rfl⟩
  · simp at h
  · simp [hmarkup] at h
  · simp [hmarkup] at h
  · rcases scanFirst_cases c cs with ⟨-, hv⟩ | ⟨rfl, hv⟩ | hv | hv
    · simp [hv] at h
    · exact ⟨cs, rfl, hv⟩
    · exact absurd (hv.symm.trans h) (ofChar_ne_atKeyword c name)
    · simp [h, isWord] at hv

theorem alike_scanFirst (hj : Joint X Y) {c : Char} (h : SameBefore X Y (c :: x) (c :: y))
    (h' : SameBefore X Y x y) (hleaves : Leaves X Y (scanFirst c x)) :
    Scan.Alike X Y (scanFirst c x) (scanFirst c y) := by
  have hextent := Numeric.extent_eq hj h
  have hstarts := Name.starts_eq hj h
  unfold scanFirst at hleaves ⊢
  rw [← hextent, ← hstarts]
  by_cases hspace : isSpace c
  · rw [if_pos hspace] at hleaves ⊢
    rw [if_pos hspace]
    obtain ⟨htake, hdrop⟩ := h.span (p := isSpace) hleaves.length (hleaves.space rfl)
    exact ⟨htake, rfl, hdrop⟩
  · rw [if_neg hspace] at hleaves ⊢
    rw [if_neg hspace]
    by_cases hquote : c = '"' ∨ c = '\''
    · rw [if_pos hquote] at hleaves ⊢
      rw [if_pos hquote]
      exact (Quoted.alike_scan hj h' hleaves.length (hleaves.quoted _ rfl)).behind _ _
    · rw [if_neg hquote] at hleaves ⊢
      rw [if_neg hquote]
      by_cases hnumeric : (Numeric.extent (c :: x)).isEmpty = false
      · rw [if_pos hnumeric] at hleaves ⊢
        rw [if_pos hnumeric]
        exact alike_scanNumeric hj h hleaves.length
      · rw [if_neg hnumeric] at hleaves ⊢
        rw [if_neg hnumeric]
        by_cases hname : Name.starts (c :: x)
        · rw [if_pos hname] at hleaves ⊢
          rw [if_pos hname]
          exact alike_scanNamed hj h hleaves
        · rw [if_neg hname] at hleaves ⊢
          rw [if_neg hname]
          exact alike_scanSign hj c h' hleaves.length

/-- A hard character is a token of its own. -/
theorem scan?_of_isHard (hd : IsHard d) (cs : List Char) :
    scan? (d :: cs) = some ⟨[d], ofChar d, cs⟩ := by
  have hextent : Numeric.extent (d :: cs) = [] := by
    cases hfront : Numeric.extent (d :: cs) with
    | nil => rfl
    | cons c front =>
      have hprefix := Numeric.extent_front (d :: cs)
      rw [hfront] at hprefix
      obtain ⟨rfl, -⟩ := List.cons_prefix_cons.mp hprefix
      exact absurd (hfront ▸ List.mem_cons_self) (Numeric.not_mem_extent hd.isEdge (c :: cs))
  have hstarts : Name.starts (d :: cs) = false := by
    rcases hd with rfl | rfl | rfl <;> rfl
  have hsign : scanSign d cs = ⟨[d], ofChar d, cs⟩ := by
    unfold scanSign
    rcases hd with rfl | rfl | rfl <;> simp <;> split <;> rfl
  rw [scan?_cons, scanFirst, if_neg (by simp [hd.isSpace_eq]), if_neg, if_neg (by simp [hextent]),
    if_neg (by simp [hstarts]), hsign]
  · rintro (rfl | rfl) <;> simp [IsHard] at hd
  all_goals
    rintro rest heq
    obtain ⟨rfl, -⟩ := List.cons.inj heq
    simp [IsHard] at hd

theorem eq_of_ofChar_eq (hd : IsHard d) {c : Char} (h : ofChar c = ofChar d) : c = d := by
  unfold ofChar at h
  rcases hd with rfl | rfl | rfl <;> split at h <;> simp_all

/-- A token that stands for a hard character is this character. -/
theorem lexeme_of_isHard (hd : IsHard d) {text : List Char} {t : Scan Token}
    (ht : scan? text = some t) (h : t.value = ofChar d) : t.lexeme = [d] := by
  have hsign : t.value = delimiter ';' ∨ t.value = opening .curly ∨ t.value = closing .curly := by
    rw [h]
    rcases hd with rfl | rfl | rfl <;> simp [ofChar]
  rcases scan?_cases ht with ⟨cs, -, rfl⟩ | hmarkup | hmarkup | ⟨c, cs, rfl, rfl⟩
  · simp at hsign
  · simp [hmarkup] at hsign
  · simp [hmarkup] at hsign
  · rcases scanFirst_cases c cs with ⟨-, hv⟩ | ⟨-, hv⟩ | hv | hv
    · simp [hv] at hsign
    · simp [hv] at hsign
    · obtain rfl := eq_of_ofChar_eq hd (hv.symm.trans h)
      rw [scan?_of_isHard hd] at ht
      rw [← Option.some.inj ht]
    · rcases hsign with hsign | hsign | hsign <;> simp [hsign, isWord] at hv

theorem isSpace_of_space {text : List Char} {t : Scan Token} (ht : scan? text = some t)
    (h : t.value = space) : ∀ c ∈ t.lexeme, isSpace c := by
  rcases scan?_cases ht with ⟨cs, -, rfl⟩ | hmarkup | hmarkup | ⟨c, cs, rfl, rfl⟩
  · simp at h
  · simp [hmarkup] at h
  · simp [hmarkup] at h
  · rcases scanFirst_cases c cs with ⟨hc, -⟩ | ⟨-, hv⟩ | hv | hv
    · rw [scanFirst, if_pos hc]
      exact fun c' hc' => List.all_eq_true.mp List.all_takeWhile c' hc'
    · simp [hv] at h
    · rw [hv] at h
      unfold ofChar at h
      split at h <;> simp_all
    · simp [h, isWord] at hv

theorem scan?_of_quote {quote : Char} (h : quote = '"' ∨ quote = '\'') (cs : List Char) :
    scan? (quote :: cs) = some ((Quoted.scan quote cs).behind [quote] quoted) := by
  have hspace : isSpace quote = false := by
    rcases h with rfl | rfl <;> rfl
  rw [scan?_cons, scanFirst, if_neg (by simp [hspace]), if_pos h]
  all_goals
    rintro rest heq
    obtain ⟨rfl, -⟩ := List.cons.inj heq
    simp at h

theorem scanNumeric_ne_quoted (text : List Char) (q : Quoted) :
    (scanNumeric text).value ≠ .quoted q := by
  by_cases hpercent : ∃ rest, (Numeric.scan text).rest = '%' :: rest
  · obtain ⟨rest, hrest⟩ := hpercent
    rw [scanNumeric_of_percent hrest]
    simp
  · rw [scanNumeric_of_ne fun rest hrest => hpercent ⟨rest, hrest⟩]
    split <;> simp

theorem scanNamed_ne_quoted (text : List Char) (q : Quoted) :
    (scanNamed text).value ≠ .quoted q := by
  by_cases hopen : ∃ rest, (Name.scan text).rest = '(' :: rest
  · obtain ⟨rest, hrest⟩ := hopen
    rw [scanNamed_of_open hrest]
    split
    · split <;> simp
    · simp
  · rw [scanNamed_of_ne fun rest hrest => hopen ⟨rest, hrest⟩]
    simp

theorem scanSign_ne_quoted (c : Char) (cs : List Char) (q : Quoted) :
    (scanSign c cs).value ≠ .quoted q := by
  have hchar : ofChar c ≠ .quoted q := by
    unfold ofChar
    split <;> simp
  unfold scanSign
  split
  · simp
  split
  · simp
  split
  · split
    · simp
    · exact hchar
  · exact hchar

/-- A quoted text starts with its quote. -/
theorem exists_of_quoted {text : List Char} {t : Scan Token} {q : Quoted}
    (ht : scan? text = some t) (h : t.value = .quoted q) :
    ∃ quote cs, text = quote :: cs ∧ (quote = '"' ∨ quote = '\'') := by
  rcases scan?_cases ht with ⟨cs, -, rfl⟩ | hmarkup | hmarkup | ⟨c, cs, rfl, rfl⟩
  · simp at h
  · simp [hmarkup] at h
  · simp [hmarkup] at h
  · refine ⟨c, cs, rfl, Classical.byContradiction fun hquote => ?_⟩
    rw [scanFirst, if_neg hquote] at h
    split at h
    · simp at h
    split at h
    · exact scanNumeric_ne_quoted _ q h
    split at h
    · exact scanNamed_ne_quoted _ q h
    · exact scanSign_ne_quoted c cs q h

/-- A run of whitespace is a token. -/
theorem scan?_of_isSpace {c : Char} (hc : isSpace c) (cs : List Char) :
    scan? (c :: cs) = some ((Scan.takeWhile isSpace (c :: cs)).map fun _ => space) := by
  rw [scan?_cons, scanFirst, if_pos hc]
  all_goals
    rintro rest heq
    obtain ⟨rfl, -⟩ := List.cons.inj heq
    simp [isSpace, isLineBreak] at hc

/-- The first token of a text is the first one with another end too, if it is sure to end
there. -/
theorem alike_scan? (hj : Joint X Y) (h : SameBefore X Y x y) {s : Scan Token}
    (hs : scan? x = some s) (hleaves : Leaves X Y s) :
    ∃ t, scan? y = some t ∧ Scan.Alike X Y s t := by
  have hlt := Nat.lt_of_le_of_lt hleaves.length (length_rest_lt_of_scan?_eq_some hs)
  obtain ⟨c, x, rfl⟩ := List.exists_cons_of_ne_nil (h.ne_nil hj)
  obtain ⟨y, rfl, -, h'⟩ := h.exists_of_cons_of_le (Nat.le_of_lt_succ hlt)
  by_cases hcomment : ∃ rest, c :: x = '/' :: '*' :: rest
  · obtain ⟨rest, hx⟩ := hcomment
    obtain ⟨rfl, rfl⟩ := List.cons.inj hx
    obtain ⟨rest', rfl, hrest⟩ := h'.exists_of_cons hj (by decide)
    obtain rfl := Option.some.inj hs
    exact ⟨_, rfl, (alike_scanComment hj hrest hleaves.length).behind _ _⟩
  by_cases hopening : ∃ rest, c :: x = '<' :: '!' :: '-' :: '-' :: rest
  · obtain ⟨rest, hx⟩ := hopening
    obtain ⟨rfl, rfl⟩ := List.cons.inj hx
    obtain rfl := Option.some.inj hs
    obtain ⟨rest', rfl, hrest⟩ := h'.exists_of_append_of_le (u := ['!', '-', '-']) hleaves.length
    exact ⟨_, rfl, rfl, rfl, hrest⟩
  by_cases hclosing : ∃ rest, c :: x = '-' :: '-' :: '>' :: rest
  · obtain ⟨rest, hx⟩ := hclosing
    obtain ⟨rfl, rfl⟩ := List.cons.inj hx
    obtain ⟨rest', rfl, hrest⟩ := h'.exists_of_append (u := ['-', '>']) hj (by decide)
    obtain rfl := Option.some.inj hs
    exact ⟨_, rfl, rfl, rfl, hrest⟩
  have hx : scan? (c :: x) = some (scanFirst c x) :=
    scan?_cons (fun rest hx => hcomment ⟨rest, hx⟩) (fun rest hx => hopening ⟨rest, hx⟩)
      fun rest hx => hclosing ⟨rest, hx⟩
  have hy : scan? (c :: y) = some (scanFirst c y) := by
    refine scan?_cons (fun rest hy => ?_) (fun rest hy => ?_) fun rest hy => ?_
    all_goals obtain ⟨rfl, rfl⟩ := List.cons.inj hy
    · obtain ⟨rest', rfl, -⟩ := h'.exists_of_cons_right hj (by decide)
      exact hcomment ⟨rest', rfl⟩
    · obtain ⟨rest', rfl, -⟩ := h'.exists_of_append_right (u := ['!', '-', '-']) hj (by decide)
      exact hopening ⟨rest', rfl⟩
    · obtain ⟨rest', rfl, -⟩ := h'.exists_of_append_right (u := ['-', '>']) hj (by decide)
      exact hclosing ⟨rest', rfl⟩
  obtain rfl : scanFirst c x = s := Option.some.inj (hx.symm.trans hs)
  exact ⟨_, hy, alike_scanFirst hj h h' hleaves⟩

end Token

theorem scanBrackets_nil (text : List Char) : scanBrackets [] text = ⟨[], (), text⟩ := by
  unfold scanBrackets
  rfl

theorem scanBrackets_of_scan? {brackets : List Bracket} (hne : brackets ≠ []) {text : List Char}
    {t : Scan Token} (ht : Token.scan? text = some t) :
    scanBrackets brackets text =
      (scanBrackets (t.value.nest brackets) t.rest).behind t.lexeme id := by
  rw [scanBrackets, if_neg (by simpa using hne)]
  split
  · simp_all
  · simp_all

namespace Token

theorem nest_nil (token : Token) : token.nest [] = token.opened?.toList := by
  unfold nest
  cases token.opened? <;> cases token.closed? <;> rfl

/-- Only a closing bracket closes brackets. -/
theorem nest_ne_nil {token : Token} (h : token.closed? = none) {brackets : List Bracket}
    (hne : brackets ≠ []) : token.nest brackets ≠ [] := by
  unfold nest
  rw [h]
  split <;> simp_all

/-- Open brackets whose end leaves `n` characters of a text do not start with the last ones
of these. -/
theorem lt_length_of_scanBrackets {n : Nat} (hn : 0 < n) {brackets : List Bracket}
    (hne : brackets ≠ []) {text : List Char}
    (hrest : n ≤ (scanBrackets brackets text).rest.length) : n < text.length := by
  cases ht : scan? text with
  | none =>
    rw [scan?_eq_none_iff] at ht
    have := (splits_scanBrackets brackets text).length_rest_le
    rw [ht, List.length_nil] at this
    rw [ht] at hrest
    omega
  | some t =>
    rw [scanBrackets_of_scan? hne ht] at hrest
    have hle := (splits_scanBrackets (t.value.nest brackets) t.rest).length_rest_le
    have hlt := length_rest_lt_of_scan?_eq_some ht
    simp only [Scan.rest_behind] at hrest
    omega

theorem lt_length_dropWhile_of_scanBrackets {n : Nat} (hn : 0 < n) {brackets : List Bracket}
    (hne : brackets ≠ []) {text : List Char}
    (hrest : n ≤ (scanBrackets brackets text).rest.length) :
    n < (text.dropWhile isSpace).length := by
  cases text with
  | nil => exact absurd (lt_length_of_scanBrackets hn hne hrest) (Nat.not_lt_zero n)
  | cons c cs =>
    by_cases hc : isSpace c
    · rw [scanBrackets_of_scan? hne (scan?_of_isSpace hc cs)] at hrest
      exact lt_length_of_scanBrackets hn hne hrest
    · rw [List.dropWhile_cons, if_neg hc]
      exact lt_length_of_scanBrackets hn hne hrest

/-- A token before which brackets are open is sure to end, if the end of the brackets leaves
the end of the text. -/
theorem leaves_of_scanBrackets (hj : Joint X Y) {brackets : List Bracket} (hne : brackets ≠ [])
    {t : Scan Token}
    (hrest : X.length ≤ (scanBrackets (t.value.nest brackets) t.rest).rest.length) :
    Leaves X Y t := by
  have hrest' : t.value.closed? = none → t.rest ≠ X := by
    rintro hclosed rfl
    exact absurd (lt_length_of_scanBrackets hj.length_pos (nest_ne_nil hclosed hne) hrest)
      (Nat.lt_irrefl _)
  refine ⟨Nat.le_trans hrest (splits_scanBrackets _ _).length_rest_le, fun h heq => ?_,
    fun _ h _ heq => ?_, fun name h => .inr ?_⟩
  · exact absurd heq (hrest' (by rw [h]; rfl))
  · exact absurd heq (hrest' (by rw [h]; rfl))
  · exact lt_length_dropWhile_of_scanBrackets hj.length_pos
      (nest_ne_nil (by rw [h]; rfl) hne) hrest

/-- A token with the brackets that it opens is sure to end, if their end leaves the end of the
text. -/
theorem leaves_of_opened (hj : Joint X Y) {t : Scan Token}
    (hrest : X.length ≤ (scanBrackets t.value.opened?.toList t.rest).rest.length)
    (hspace : t.value = .space → t.rest = X → ∀ c ∈ Y.head?, isSpace c = false)
    (hquoted : ∀ text, t.value = .quoted text → text.isBroken → t.rest = X → startsLineBreak X →
      Y ≠ []) : Leaves X Y t where
  length := Nat.le_trans hrest (splits_scanBrackets _ _).length_rest_le
  space := hspace
  quoted := hquoted
  function name h := by
    rw [h] at hrest
    exact .inr (lt_length_dropWhile_of_scanBrackets hj.length_pos (by simp [opened?]) hrest)

end Token

theorem alike_scanBrackets (hj : Joint X Y) (brackets : List Bracket) (h : SameBefore X Y x y)
    (hrest : X.length ≤ (scanBrackets brackets x).rest.length) :
    Scan.Alike X Y (scanBrackets brackets x) (scanBrackets brackets y) := by
  fun_induction scanBrackets brackets x generalizing y with
  | case1 brackets x hempty =>
    obtain rfl := List.isEmpty_iff.mp hempty
    rw [scanBrackets_nil]
    exact ⟨rfl, rfl, h⟩
  | case2 brackets x hempty hnone =>
    have hpos := hj.length_pos
    rw [Token.scan?_eq_none_iff.mp hnone, List.length_nil] at hrest
    omega
  | case3 brackets x hempty t ht ih =>
    have hne : brackets ≠ [] := by simpa using hempty
    obtain ⟨t', ht', halike⟩ :=
      Token.alike_scan? hj h ht (Token.leaves_of_scanBrackets hj hne hrest)
    rw [scanBrackets_of_scan? hne ht', ← halike.value_eq, ← halike.lexeme_eq]
    exact (ih halike.rest hrest).behind _ _

namespace Prelude

theorem scan_of_ends {inBlock : Bool} {text : List Char} (h : endsBefore inBlock text) :
    scan inBlock text = ⟨[], [], text⟩ := by
  unfold scan
  rw [if_pos h]

/-- A prelude ends before a hard character only, or at the end of the text. -/
theorem isHard_of_endsBefore {inBlock : Bool} {r : List Char} (h : endsBefore inBlock (d :: r)) :
    IsHard d := by
  simp only [endsBefore, Bool.or_eq_true, Bool.and_eq_true, beq_iff_eq] at h
  rcases h with (rfl | rfl) | ⟨-, rfl⟩ <;> decide

/-- A prelude is followed by what ends it. -/
theorem endsBefore_rest_scan (inBlock : Bool) (text : List Char) :
    endsBefore inBlock (scan inBlock text).rest := by
  fun_induction scan inBlock text with
  | case1 => assumption
  | case2 text hends hnone => rw [Token.scan?_eq_none_iff.mp hnone]; rfl
  | case3 text _ t h inside ih => exact ih

theorem scan_of_token {inBlock : Bool} {text : List Char} {t : Scan Token}
    (hends : endsBefore inBlock text = false) (ht : Token.scan? text = some t) :
    scan inBlock text =
      (scan inBlock (scanBrackets t.value.opened?.toList t.rest).rest).behind
        (t.lexeme ++ (scanBrackets t.value.opened?.toList t.rest).lexeme)
        (⟨t.value.pieceKind,
          t.lexeme ++ (scanBrackets t.value.opened?.toList t.rest).lexeme⟩ :: ·) := by
  rw [scan, hends]
  simp only [Bool.false_eq_true, if_false]
  split
  · simp_all
  · simp_all

/-- A prelude that leaves the end of a text is the same with another end in its place, if no
whitespace starts the ends and both end a prelude. -/
theorem alike_scan (hj : Joint X Y) {inBlock : Bool} (hX : ∀ c ∈ X.head?, isSpace c = false)
    (hY : ∀ c ∈ Y.head?, isSpace c = false) (hends : endsBefore inBlock X)
    (hends' : endsBefore inBlock Y) (h : SameBefore X Y x y)
    (hrest : X.length ≤ (scan inBlock x).rest.length) :
    Scan.Alike X Y (scan inBlock x) (scan inBlock y) := by
  have hbefore : ∀ {x y : List Char}, SameBefore X Y x y →
      endsBefore inBlock x = endsBefore inBlock y := by
    rintro _ _ (_ | _)
    · rw [hends, hends']
    · rfl
  fun_induction scan inBlock x generalizing y with
  | case1 x hstop =>
    rw [scan_of_ends (hbefore h ▸ hstop)]
    exact ⟨rfl, rfl, h⟩
  | case2 x hstop hnone =>
    have hpos := hj.length_pos
    rw [Token.scan?_eq_none_iff.mp hnone, List.length_nil] at hrest
    omega
  | case3 x hstop t ht inside =>
    rename_i ih
    have hinside : X.length ≤ (scanBrackets t.value.opened?.toList t.rest).rest.length :=
      Nat.le_trans hrest (splits_scan inBlock _).length_rest_le
    have hle := (splits_scanBrackets t.value.opened?.toList t.rest).length_rest_le
    obtain ⟨t', ht', htoken⟩ := Token.alike_scan? hj h ht
      (.of_not_space hX hY (Nat.le_trans hinside hle))
    have hbrackets := alike_scanBrackets hj _ htoken.rest hinside
    rw [scan_of_token (by rw [← hbefore h]; simpa using hstop) ht',
      ← htoken.value_eq, ← htoken.lexeme_eq, ← hbrackets.lexeme_eq]
    exact (ih hbrackets.rest hrest).behind _ _

/-- A prelude that ends before a hard character is the same whatever stands behind it. -/
theorem scan_eq_of_isHard (hd : IsHard d) {r r' : List Char} {inBlock : Bool}
    (h : SameBefore (d :: r) (d :: r') x y) (hrest : (scan inBlock x).rest = d :: r) :
    scan inBlock y = ⟨(scan inBlock x).lexeme, (scan inBlock x).value, d :: r'⟩ := by
  have hspace : ∀ {cs : List Char}, ∀ c ∈ (d :: cs).head?, isSpace c = false := by
    rintro _ _ ⟨⟩
    exact hd.isSpace_eq
  have hends := hrest ▸ endsBefore_rest_scan inBlock x
  have halike := alike_scan (.same hd.isBreak r r') hspace hspace hends hends h
    (Nat.le_of_eq (by rw [hrest]))
  have hsame := halike.rest
  rw [hrest] at hsame
  rw [halike.lexeme_eq, halike.value_eq, ← hsame.eq_of_here]

/-- A prelude is the same if nothing follows it. -/
theorem scan_lexeme_scan (inBlock : Bool) (text : List Char) :
    scan inBlock (scan inBlock text).lexeme =
      ⟨(scan inBlock text).lexeme, (scan inBlock text).value, []⟩ := by
  have hsplits := splits_scan inBlock text
  have hends := endsBefore_rest_scan inBlock text
  cases hrest : (scan inBlock text).rest with
  | nil =>
    rw [Scan.Splits, hrest, List.append_nil] at hsplits
    rw [← hrest]
    exact congrArg (scan inBlock) hsplits
  | cons d r =>
    rw [hrest] at hends
    have hd := isHard_of_endsBefore hends
    have hspace : ∀ c ∈ (d :: r).head?, isSpace c = false := by
      rintro _ ⟨⟩
      exact hd.isSpace_eq
    have hj := Joint.none hd.isStop r
    have hsame : SameBefore (d :: r) [] ((scan inBlock text).lexeme ++ d :: r)
        ((scan inBlock text).lexeme ++ []) :=
      .append hj (.inr (.inl ⟨rfl, fun hline => by
        simp [startsLineBreak, hd.isLineBreak_eq] at hline⟩))
    rw [← hrest, hsplits, hrest, List.append_nil] at hsame
    have halike := alike_scan hj hspace (by simp) hends rfl hsame (Nat.le_of_eq (by rw [hrest]))
    have hnil := halike.rest
    rw [hrest] at hnil
    calc scan inBlock (scan inBlock text).lexeme
      _ = ⟨(scan inBlock (scan inBlock text).lexeme).lexeme,
          (scan inBlock (scan inBlock text).lexeme).value,
          (scan inBlock (scan inBlock text).lexeme).rest⟩ := rfl
      _ = ⟨(scan inBlock text).lexeme, (scan inBlock text).value, []⟩ := by
        rw [← halike.lexeme_eq, ← halike.value_eq, hnil.eq_of_here]

end Prelude

end Typography
