import Typography.Stylesheet.Prelude

/-!
# Ends of texts

What a scan leaves at the end of a text matters to it only by its first character, if this
is whitespace, a slash, a semicolon or a curly bracket. `Text.Joint` says which ends may
stand for one another: ends with the same first character, nothing in the place of an end,
which may start with an exclamation mark too, and whitespace in the place of a slash.
`Text.SameBefore` relates texts that differ in such an end only.

Where the ends start with different characters, what stands before them must not be an
escape that may go on, `Escape.isOpen`: whitespace would be taken for its gap.
-/

namespace Typography

namespace Text

/-- A character that ends a statement or a prelude. -/
def IsHard (c : Char) : Prop :=
  c = ';' ∨ c = '{' ∨ c = '}'

/-- A character that goes on with no name and no number, and starts no longer sign. -/
def IsBreak (c : Char) : Prop :=
  isSpace c ∨ c = '/' ∨ IsHard c

/-- A character in whose place nothing may stand: a break, or an exclamation mark, which goes
on with a sign of the embedding markup only and does not end this. -/
def IsStop (c : Char) : Prop :=
  IsBreak c ∨ c = '!'

/-- The characters that stand in no name and in no number: the stops and the brackets. -/
def edges : List Char :=
  [' ', '\t', '\n', '\r', '\u000c', '/', '!', ';', '{', '}', '(', ')', '[', ']']

/-- A character that stands in no name and in no number. -/
def IsEdge (c : Char) : Prop :=
  c ∈ edges

instance (c : Char) : Decidable (IsHard c) :=
  inferInstanceAs (Decidable (_ ∨ _ ∨ _))

instance (c : Char) : Decidable (IsBreak c) :=
  inferInstanceAs (Decidable (_ ∨ _ ∨ _))

instance (c : Char) : Decidable (IsStop c) :=
  inferInstanceAs (Decidable (_ ∨ _))

namespace IsEdge

variable {d : Char} (hd : IsEdge d)
include hd

/-- An edge is none of the characters of other tokens. -/
theorem ne {c : Char} (hc : ¬IsEdge c) : d ≠ c := by
  rintro rfl
  exact hc hd

theorem eq_false {p : Char → Bool} (hp : edges.all (!p ·)) : p d = false := by
  simpa using List.all_eq_true.mp hp d hd

theorem isPart_eq : Name.isPart d = false :=
  eq_false hd (by decide)

theorem isDigit_eq : d.isDigit = false :=
  eq_false hd (by decide)

theorem isHex_eq : isHex d = false :=
  eq_false hd (by decide)

end IsEdge

instance (c : Char) : Decidable (IsEdge c) :=
  inferInstanceAs (Decidable (_ ∈ _))

namespace IsHard

variable {d : Char} (hd : IsHard d)
include hd

theorem isBreak : IsBreak d :=
  .inr (.inr hd)

theorem isStop : IsStop d :=
  .inl hd.isBreak

theorem isSpace_eq : isSpace d = false := by
  rcases hd with rfl | rfl | rfl <;> decide

theorem isLineBreak_eq : isLineBreak d = false := by
  rcases hd with rfl | rfl | rfl <;> decide

theorem isPart_eq : Name.isPart d = false := by
  rcases hd with rfl | rfl | rfl <;> decide

theorem isEdge : IsEdge d := by
  rcases hd with rfl | rfl | rfl <;> decide

/-- A hard character is none of those that stand in the rules of the scanners. -/
theorem ne {c : Char} (hc : ¬IsHard c) : d ≠ c := by
  rintro rfl
  exact hc hd

end IsHard

namespace IsBreak

variable {d : Char} (hd : IsBreak d)
include hd

theorem isEdge : IsEdge d := by
  rcases hd with hspace | rfl | hard
  · simp only [isSpace, isLineBreak, Bool.or_eq_true, beq_iff_eq] at hspace
    rcases hspace with (rfl | rfl) | (rfl | rfl) | rfl <;> decide
  · decide
  · exact hard.isEdge

end IsBreak

namespace IsStop

variable {d : Char} (hd : IsStop d)
include hd

theorem isEdge : IsEdge d := by
  rcases hd with hbreak | rfl
  · exact hbreak.isEdge
  · decide

theorem ne {c : Char} (hc : ¬IsStop c) : d ≠ c := by
  rintro rfl
  exact hc hd

end IsStop

/-- The end `Y` may stand in the place of the end `X` of a text. -/
inductive Joint : List Char → List Char → Prop
  | same {d : Char} (hd : IsBreak d) (r r' : List Char) : Joint (d :: r) (d :: r')
  | none {d : Char} (hd : IsStop d) (r : List Char) : Joint (d :: r) []
  | gap {e : Char} (he : isSpace e) (r r' : List Char) : Joint ('/' :: r) (e :: r')

namespace Joint

variable {X Y : List Char}

theorem exists_isStop (hj : Joint X Y) : ∃ d r, X = d :: r ∧ IsStop d := by
  cases hj with
  | same hd r r' => exact ⟨_, r, rfl, .inl hd⟩
  | none hd r => exact ⟨_, r, rfl, hd⟩
  | gap he r r' => exact ⟨'/', r, rfl, .inl (.inr (.inl rfl))⟩

theorem isBreak_of_cons {c : Char} {cs : List Char} (hj : Joint X (c :: cs)) : IsBreak c := by
  cases hj with
  | same hd r r' => exact hd
  | gap he r r' => exact .inl he

theorem ne_nil (hj : Joint X Y) : X ≠ [] := by
  obtain ⟨d, r, rfl, -⟩ := hj.exists_isStop
  exact List.cons_ne_nil d r

theorem length_pos (hj : Joint X Y) : 0 < X.length :=
  List.length_pos_iff.mpr hj.ne_nil

/-- What does not tell stops from one another, and from the end of the text, does not
tell the ends from one another. -/
theorem eq_of_isStop {α : Type} {f : List Char → α} (hj : Joint X Y)
    (hf : ∀ d r, IsStop d → f (d :: r) = f []) : f X = f Y := by
  obtain ⟨d, r, rfl, hd⟩ := hj.exists_isStop
  cases Y with
  | nil => exact hf d r hd
  | cons e r' => rw [hf d r hd, hf e r' (.inl hj.isBreak_of_cons)]

end Joint

/-- What stands behind a backslash is the same escape in two texts, `x` with the end `X` and
`y` with the end `Y`, as far as the escape leaves the end. -/
structure Firm (X Y x y : List Char) : Prop where
  startsLineBreak_eq : startsLineBreak x = startsLineBreak y
  lineBreak_eq : X.length ≤ (afterLineBreak x).length → lineBreak x = lineBreak y
  lexeme_eq : X.length ≤ (Escape.scan x).rest.length →
    (Escape.scan x).lexeme = (Escape.scan y).lexeme

/-- Two texts are the same up to their ends `X` and `Y`, with the same escapes. -/
inductive SameBefore (X Y : List Char) : List Char → List Char → Prop
  | here : SameBefore X Y X Y
  | cons (c : Char) {x y : List Char} (hfirm : c = '\\' → Firm X Y x y) :
    SameBefore X Y x y → SameBefore X Y (c :: x) (c :: y)

namespace SameBefore

variable {X Y x y : List Char}

theorem length_le (h : SameBefore X Y x y) : X.length ≤ x.length := by
  induction h with
  | here => exact Nat.le_refl _
  | cons c _ _ ih =>
    rw [List.length_cons]
    omega

theorem ne_nil (hj : Joint X Y) (h : SameBefore X Y x y) : x ≠ [] :=
  List.ne_nil_of_length_pos (Nat.lt_of_lt_of_le hj.length_pos h.length_le)

/-- Of the ends nothing is the same. -/
theorem eq_of_here (h : SameBefore X Y X y) : y = Y := by
  cases h with
  | here => rfl
  | cons c _ h => exact absurd h.length_le (Nat.not_succ_le_self _)

/-- Behind a front that leaves the end the texts are the same up to their ends again. -/
theorem drop (h : SameBefore X Y x y) (n : Nat) (hn : X.length + n ≤ x.length) :
    x.take n = y.take n ∧ SameBefore X Y (x.drop n) (y.drop n) := by
  induction n generalizing x y with
  | zero => exact ⟨rfl, h⟩
  | succ n ih =>
    cases h with
    | here => omega
    | cons c _ h =>
      rw [List.length_cons] at hn
      obtain ⟨htake, hdrop⟩ := ih h (by omega)
      exact ⟨by rw [List.take_succ_cons, List.take_succ_cons, htake], hdrop⟩

theorem of_append {u : List Char} (h : SameBefore X Y (u ++ x) (u ++ y))
    (hx : X.length ≤ x.length) : SameBefore X Y x y := by
  have hdrop := (h.drop u.length (by rw [List.length_append]; omega)).2
  rwa [List.drop_left, List.drop_left] at hdrop

/-- Texts that are the same up to their ends have the same front before these. -/
theorem eq_append {v : List Char} (h : SameBefore X Y (v ++ X) y) : y = v ++ Y := by
  obtain ⟨htake, hdrop⟩ := h.drop v.length (by rw [List.length_append]; omega)
  rw [List.drop_left] at hdrop
  rw [← List.take_append_drop v.length y, ← htake, List.take_left, hdrop.eq_of_here]

/-- What scans with the same lexeme leave is the same up to the ends. -/
theorem rest {α : Type} {s t : Scan α} (h : SameBefore X Y x y) (hs : s.Splits x)
    (ht : t.Splits y) (hlexeme : s.lexeme = t.lexeme) (hrest : X.length ≤ s.rest.length) :
    SameBefore X Y s.rest t.rest := by
  have hlength := hs.length_eq
  obtain ⟨-, hdrop⟩ := h.drop s.lexeme.length (by omega)
  have hx : x.drop s.lexeme.length = s.rest := by rw [← hs, List.drop_left]
  have hy : y.drop s.lexeme.length = t.rest := by rw [hlexeme, ← ht, List.drop_left]
  rwa [hx, hy] at hdrop

theorem exists_of_cons (hj : Joint X Y) {c : Char} (h : SameBefore X Y (c :: x) y)
    (hc : ¬IsStop c) : ∃ y', y = c :: y' ∧ SameBefore X Y x y' := by
  cases h with
  | here =>
    obtain ⟨d, r, heq, hd⟩ := hj.exists_isStop
    exact absurd (List.cons.inj heq).1.symm (hd.ne hc)
  | cons _ _ h => exact ⟨_, rfl, h⟩

/-- A first character that leaves the end is the first one of both texts. -/
theorem exists_of_cons_of_le {c : Char} (h : SameBefore X Y (c :: x) y)
    (hx : X.length ≤ x.length) :
    ∃ y', y = c :: y' ∧ (c = '\\' → Firm X Y x y') ∧ SameBefore X Y x y' := by
  cases h with
  | here => exact absurd hx (Nat.not_succ_le_self _)
  | cons _ hfirm h => exact ⟨_, rfl, hfirm, h⟩

theorem exists_of_cons_right (hj : Joint X Y) {c : Char} (h : SameBefore X Y x (c :: y))
    (hc : ¬IsBreak c) : ∃ x', x = c :: x' ∧ SameBefore X Y x' y := by
  cases h with
  | here => exact absurd hj.isBreak_of_cons hc
  | cons _ _ h => exact ⟨_, rfl, h⟩

theorem exists_of_append (hj : Joint X Y) {u : List Char} (h : SameBefore X Y (u ++ x) y)
    (hu : u.all fun c => ¬IsStop c) : ∃ y', y = u ++ y' ∧ SameBefore X Y x y' := by
  induction u generalizing y with
  | nil => exact ⟨y, rfl, h⟩
  | cons c u ih =>
    simp only [List.all_cons, Bool.and_eq_true, decide_eq_true_eq] at hu
    obtain ⟨y', rfl, h'⟩ := h.exists_of_cons hj hu.1
    obtain ⟨y'', rfl, h''⟩ := ih h' hu.2
    exact ⟨y'', rfl, h''⟩

/-- A front that leaves the end is a front of both texts. -/
theorem exists_of_append_of_le {u : List Char} (h : SameBefore X Y (u ++ x) y)
    (hx : X.length ≤ x.length) : ∃ y', y = u ++ y' ∧ SameBefore X Y x y' := by
  obtain ⟨htake, hdrop⟩ := h.drop u.length (by rw [List.length_append]; omega)
  rw [List.take_left] at htake
  rw [List.drop_left] at hdrop
  refine ⟨y.drop u.length, ?_, hdrop⟩
  calc y = y.take u.length ++ y.drop u.length := (List.take_append_drop _ _).symm
    _ = u ++ y.drop u.length := by rw [← htake]

theorem exists_of_append_right (hj : Joint X Y) {u : List Char} (h : SameBefore X Y x (u ++ y))
    (hu : u.all fun c => ¬IsBreak c) : ∃ x', x = u ++ x' ∧ SameBefore X Y x' y := by
  induction u generalizing x with
  | nil => exact ⟨x, rfl, h⟩
  | cons c u ih =>
    simp only [List.all_cons, Bool.and_eq_true, decide_eq_true_eq] at hu
    obtain ⟨x', rfl, h'⟩ := h.exists_of_cons_right hj hu.1
    obtain ⟨x'', rfl, h''⟩ := ih h' hu.2
    exact ⟨x'', rfl, h''⟩

/-- A stretch of characters that leaves the end is the same in both texts, if it does not
go on behind the other one. -/
theorem span {p : Char → Bool} (h : SameBefore X Y x y)
    (hX : X.length ≤ (x.dropWhile p).length)
    (hY : x.dropWhile p = X → ∀ c ∈ Y.head?, p c = false) :
    x.takeWhile p = y.takeWhile p ∧ SameBefore X Y (x.dropWhile p) (y.dropWhile p) := by
  induction h with
  | here =>
    have heq : X.dropWhile p = X := (List.dropWhile_suffix p).eq_of_length_le hX
    have htake : X.takeWhile p = [] := by
      have := List.takeWhile_append_dropWhile (p := p) (l := X)
      rw [heq] at this
      exact List.append_left_eq_self.mp this
    have hhead := hY heq
    rw [heq, htake]
    cases Y with
    | nil => exact ⟨rfl, here⟩
    | cons c cs =>
      have hc := hhead c rfl
      rw [List.takeWhile_cons, List.dropWhile_cons, hc]
      exact ⟨rfl, here⟩
  | cons c hfirm h ih =>
    rw [List.takeWhile_cons, List.takeWhile_cons, List.dropWhile_cons, List.dropWhile_cons]
    rw [List.dropWhile_cons] at hX hY
    cases hc : p c with
    | true =>
      rw [if_pos hc] at hX hY
      obtain ⟨htake, hdrop⟩ := ih hX hY
      exact ⟨congrArg _ htake, hdrop⟩
    | false => exact ⟨rfl, cons c hfirm h⟩

theorem length_le_dropWhile {p : Char → Bool} (hp : ∀ d, IsEdge d → p d = false)
    (hj : Joint X Y) (h : SameBefore X Y x y) : X.length ≤ (x.dropWhile p).length := by
  induction h with
  | here =>
    obtain ⟨d, r, rfl, hd⟩ := hj.exists_isStop
    rw [List.dropWhile_cons, hp d hd.isEdge]
    exact Nat.le_refl _
  | cons c _ h ih =>
    rw [List.dropWhile_cons]
    split
    · exact ih
    · exact (Nat.le_succ_of_le h.length_le)

theorem takeWhile_eq {p : Char → Bool} (hp : ∀ d, IsEdge d → p d = false) (hj : Joint X Y)
    (h : SameBefore X Y x y) : x.takeWhile p = y.takeWhile p := by
  refine (h.span (h.length_le_dropWhile hp hj) fun _ c hc => ?_).1
  cases Y with
  | nil => simp at hc
  | cons e r' =>
    obtain rfl : e = c := by simpa using hc
    exact hp e hj.isBreak_of_cons.isEdge

theorem take_takeWhile_eq {p : Char → Bool} (hp : ∀ d, IsEdge d → p d = false) (hj : Joint X Y)
    (n : Nat) (h : SameBefore X Y x y) : (x.take n).takeWhile p = (y.take n).takeWhile p := by
  induction n generalizing x y with
  | zero => simp
  | succ n ih =>
    cases h with
    | here =>
      refine hj.eq_of_isStop (f := fun cs => (cs.take (n + 1)).takeWhile p) fun d r hd => ?_
      simp [hp d hd.isEdge]
    | cons c _ h =>
      rw [List.take_succ_cons, List.take_succ_cons, List.takeWhile_cons, List.takeWhile_cons, ih h]

/-- A front of the text without breaks leaves the end. -/
theorem front {front : List Char} (hj : Joint X Y) (h : SameBefore X Y x y)
    (hfront : front <+: x) (hbreak : ∀ d, IsEdge d → d ∉ front) :
    SameBefore X Y (x.drop front.length) (y.drop front.length) := by
  induction h generalizing front with
  | here =>
    cases front with
    | nil => exact here
    | cons c front =>
      obtain ⟨d, r, rfl, hd⟩ := hj.exists_isStop
      obtain ⟨rfl, -⟩ := List.cons_prefix_cons.mp hfront
      exact absurd List.mem_cons_self (hbreak c hd.isEdge)
  | cons c hfirm h ih =>
    cases front with
    | nil => exact cons c hfirm h
    | cons c' front =>
      exact ih (List.cons_prefix_cons.mp hfront).2 fun d hd hmem =>
        hbreak d hd (List.mem_cons_of_mem _ hmem)

/-- A line break that leaves the end is the same in both texts. -/
theorem lineBreak (h : SameBefore X Y x y) (hfirm : Firm X Y x y)
    (hrest : X.length ≤ (afterLineBreak x).length) :
    lineBreak x = lineBreak y ∧ SameBefore X Y (afterLineBreak x) (afterLineBreak y) := by
  have heq := hfirm.lineBreak_eq hrest
  exact ⟨heq, h.rest (s := ⟨Text.lineBreak x, (), afterLineBreak x⟩)
    (t := ⟨Text.lineBreak y, (), afterLineBreak y⟩) (lineBreak_append_afterLineBreak x)
    (lineBreak_append_afterLineBreak y) heq hrest⟩

end SameBefore

end Text

open Text

variable {X Y : List Char}

namespace Escape

/-- An escape takes a character away, unless the text is at its end. -/
theorem length_rest_scan_lt {text : List Char} (h : text ≠ []) :
    (scan text).rest.length < text.length := by
  obtain ⟨c, cs, rfl⟩ := List.exists_cons_of_ne_nil h
  refine (splits_scan (c :: cs)).length_rest_lt ?_
  rw [scan]
  split <;> simp

/-- Whether an escape that has read `cs` behind its backslash may go on: it has read no more
than hexadecimal digits, perhaps with a carriage return behind them. -/
def mayGoOn (cs : List Char) : Bool :=
  (cs.takeWhile isHex).length ≤ 6 && (cs.dropWhile isHex == [] || cs.dropWhile isHex == ['\r'])

/-- Whether a text ends in an escape that may go on. -/
def isOpen : List Char → Bool
  | [] => false
  | c :: cs => (c == '\\' && mayGoOn cs) || isOpen cs

theorem mayGoOn_append {digits ending : List Char} (hdigits : ∀ c ∈ digits, isHex c)
    (hlength : digits.length ≤ 6) (hending : ending = [] ∨ ending = ['\r']) :
    mayGoOn (digits ++ ending) := by
  have htake : (digits ++ ending).takeWhile isHex = digits := by
    rw [List.takeWhile_append_of_pos hdigits]
    rcases hending with rfl | rfl <;> simp [isHex, hexValue?]
  have hdrop : (digits ++ ending).dropWhile isHex = ending := by
    rw [List.dropWhile_append_of_pos hdigits]
    rcases hending with rfl | rfl <;> simp [isHex, hexValue?]
  rw [mayGoOn, htake, hdrop]
  rcases hending with rfl | rfl <;> simpa using hlength

theorem not_startsLineBreak_of_length_le {text : List Char}
    (h : text.length ≤ (afterLineBreak text).length) : startsLineBreak text = false := by
  cases text with
  | nil => rfl
  | cons c cs =>
    rw [startsLineBreak, ← Bool.not_eq_true]
    intro hc
    unfold afterLineBreak at h
    split at h
    · rename_i heq
      rw [heq] at h
      simp only [List.length_cons] at h
      omega
    · rename_i heq
      obtain ⟨rfl, rfl⟩ := List.cons.inj heq
      rw [if_pos hc] at h
      exact absurd h (Nat.not_succ_le_self _)
    · simp_all

theorem lineBreak_of_not_startsLineBreak {text : List Char} (h : startsLineBreak text = false) :
    lineBreak text = [] := by
  cases text with
  | nil => rfl
  | cons c cs =>
    have hc : isLineBreak c = false := h
    unfold lineBreak
    split
    · rename_i heq
      obtain ⟨rfl, rfl⟩ := List.cons.inj heq
      simp [isLineBreak] at hc
    · rename_i heq
      obtain ⟨rfl, rfl⟩ := List.cons.inj heq
      rw [if_neg (by simp [hc])]
    · rfl

/-- Whether whitespace comes next is the same at both ends, where this matters to a line
break or a gap that `u` is the front of. -/
theorem lineBreak_append_eq {u : List Char}
    (hu : u = [] ∨ u = ['\r'] → X.head? = Y.head? ∨ Y = [])
    (hrest : X.length ≤ (afterLineBreak (u ++ X)).length) :
    lineBreak (u ++ X) = lineBreak (u ++ Y) := by
  match u with
  | [] =>
    have hX : startsLineBreak X = false := not_startsLineBreak_of_length_le hrest
    have hY : startsLineBreak Y = false := by
      rcases hu (.inl rfl) with hhead | rfl
      · cases X <;> cases Y <;> simp_all [startsLineBreak]
      · rfl
    exact (lineBreak_of_not_startsLineBreak hX).trans (lineBreak_of_not_startsLineBreak hY).symm
  | [c] =>
    have hcut : ∀ Z : List Char, ¬(c = '\r' ∧ Z.head? = some '\n') →
        lineBreak (c :: Z) = if isLineBreak c then [c] else [] := by
      intro Z hZ
      unfold lineBreak
      split <;> simp_all
    have hX : ¬(c = '\r' ∧ X.head? = some '\n') := by
      rintro ⟨rfl, hX⟩
      obtain ⟨r, rfl⟩ := List.head?_eq_some_iff.mp hX
      exact absurd hrest (Nat.not_succ_le_self _)
    have hY : ¬(c = '\r' ∧ Y.head? = some '\n') := by
      rintro ⟨rfl, hY⟩
      rcases hu (.inr rfl) with hhead | rfl
      · exact hX ⟨rfl, hhead.trans hY⟩
      · simp at hY
    exact (hcut X hX).trans (hcut Y hY).symm
  | c :: c' :: u =>
    by_cases hc : c = '\r' ∧ c' = '\n'
    · rw [hc.1, hc.2]
      rfl
    · have hcut : ∀ Z : List Char,
          lineBreak (c :: c' :: Z) = if isLineBreak c then [c] else [] := by
        intro Z
        unfold lineBreak
        split <;> simp_all
      exact (hcut (u ++ X)).trans (hcut (u ++ Y)).symm

theorem gap_append_eq {u : List Char} (hu : u = [] ∨ u = ['\r'] → X.head? = Y.head? ∨ Y = [])
    (hrest : X.length ≤ (afterGap (u ++ X)).length) : gap (u ++ X) = gap (u ++ Y) := by
  cases u with
  | nil =>
    have hnil : ∀ Z : List Char, (∀ c ∈ Z.head?, ¬(c = ' ' ∨ c = '\t') ∧ isLineBreak c = false) →
        gap Z = [] := by
      rintro (_ | ⟨c, cs⟩) hZ
      · rfl
      · obtain ⟨hblank, hline⟩ := hZ c rfl
        rw [gap, if_neg hblank]
        exact lineBreak_of_not_startsLineBreak hline
    have hX : ∀ c ∈ X.head?, ¬(c = ' ' ∨ c = '\t') ∧ isLineBreak c = false := by
      intro c hc
      obtain ⟨r, rfl⟩ := List.head?_eq_some_iff.mp hc
      rw [List.nil_append, afterGap] at hrest
      split at hrest
      · exact absurd hrest (Nat.not_succ_le_self _)
      · exact ⟨‹_›, not_startsLineBreak_of_length_le hrest⟩
    refine (hnil X hX).trans (hnil Y fun c hc => ?_).symm
    rcases hu (.inl rfl) with hhead | rfl
    · exact hX c (hhead ▸ hc)
    · simp at hc
  | cons c u =>
    simp only [List.cons_append, gap, afterGap] at hrest ⊢
    split
    · rfl
    · rename_i hc
      rw [if_neg hc] at hrest
      exact lineBreak_append_eq (u := c :: u) hu hrest

/-- Digits that are followed by the end of the text or a carriage return only may go on. -/
theorem drop_ne_of_not_mayGoOn {u : List Char} {c : Char} (hc : isHex c)
    (hu : mayGoOn (c :: u) = false) :
    u.drop ((u.take 5).takeWhile isHex).length ≠ [] ∧
      u.drop ((u.take 5).takeWhile isHex).length ≠ ['\r'] := by
  have hsplit := takeWhile_take_append_drop isHex 5 u
  have hlength : ((u.take 5).takeWhile isHex).length ≤ 5 := by
    have hle := (List.takeWhile_prefix isHex (l := u.take 5)).length_le
    have htake := List.length_take_le 5 u
    omega
  have hhex : ∀ d ∈ c :: (u.take 5).takeWhile isHex, isHex d := by
    intro d hd
    rcases List.mem_cons.mp hd with rfl | hd
    · exact hc
    · exact List.all_eq_true.mp List.all_takeWhile d hd
  have hnot : ∀ ending, ending = [] ∨ ending = ['\r'] →
      u.drop ((u.take 5).takeWhile isHex).length ≠ ending := by
    intro ending hending heq
    have := mayGoOn_append hhex (by rw [List.length_cons]; omega) hending
    rw [List.cons_append, ← heq, hsplit, hu] at this
    exact absurd this (by simp)
  exact ⟨hnot [] (.inl rfl), hnot ['\r'] (.inr rfl)⟩

theorem takeWhile_take_append {p : Char → Bool} {cs : List Char} (hcs : ∀ d ∈ cs.head?, p d = false)
    (n : Nat) (u : List Char) : ((u ++ cs).take n).takeWhile p = (u.take n).takeWhile p := by
  induction n generalizing u with
  | zero => simp
  | succ n ih =>
    cases u with
    | nil =>
      cases cs with
      | nil => rfl
      | cons d cs => simp [hcs d rfl]
    | cons c u =>
      rw [List.cons_append, List.take_succ_cons, List.take_succ_cons, List.takeWhile_cons,
        List.takeWhile_cons, ih]

/-- An escape that leaves the end is the same with another end, if it does not go on, or if the
ends start alike, or if there is nothing in the place of the end. -/
theorem lexeme_scan_append (hj : Joint X Y) {u : List Char}
    (hu : X.head? = Y.head? ∨ Y = [] ∨ mayGoOn u = false)
    (hrest : X.length ≤ (scan (u ++ X)).rest.length) :
    (scan (u ++ X)).lexeme = (scan (u ++ Y)).lexeme := by
  cases u with
  | nil =>
    have := length_rest_scan_lt hj.ne_nil
    rw [List.nil_append] at hrest
    omega
  | cons c u =>
    have hX : ∀ d ∈ X.head?, isHex d = false := by
      obtain ⟨d, r, rfl, hd⟩ := hj.exists_isStop
      rintro _ ⟨⟩
      exact hd.isEdge.isHex_eq
    have hY : ∀ d ∈ Y.head?, isHex d = false := by
      intro d hd
      obtain ⟨r, rfl⟩ := List.head?_eq_some_iff.mp hd
      exact hj.isBreak_of_cons.isEdge.isHex_eq
    have hdrop : ∀ Z : List Char, (u ++ Z).drop ((u.take 5).takeWhile isHex).length =
        u.drop ((u.take 5).takeWhile isHex).length ++ Z := by
      intro Z
      have hle := (List.takeWhile_prefix isHex (l := u.take 5)).length_le
      have htake := List.length_take_le' 5 u
      exact List.drop_append_of_le_length (by omega)
    by_cases hc : isHex c
    · rw [List.cons_append, scan, if_pos hc] at hrest
      rw [List.cons_append, List.cons_append, scan, scan, if_pos hc, if_pos hc]
      simp only [List.length_cons, List.drop_succ_cons, takeWhile_take_append hX,
        takeWhile_take_append hY, hdrop] at hrest ⊢
      rw [gap_append_eq (fun hopen => ?_) hrest]
      rcases hu with hhead | hnil | hu
      · exact .inl hhead
      · exact .inr hnil
      · obtain ⟨hnil, hreturn⟩ := drop_ne_of_not_mayGoOn hc hu
        rcases hopen with hopen | hopen
        · exact absurd hopen hnil
        · exact absurd hopen hreturn
    · rw [List.cons_append, List.cons_append, scan, scan, if_neg hc, if_neg hc]

/-- What stands behind a backslash is firm if it does not go on, or if the ends start alike,
or if there is nothing in the place of the end. -/
theorem firm_append (hj : Joint X Y) {u : List Char}
    (hu : X.head? = Y.head? ∨ (Y = [] ∧ (startsLineBreak X → u ≠ [])) ∨ mayGoOn u = false) :
    Firm X Y (u ++ X) (u ++ Y) where
  startsLineBreak_eq := by
    cases u with
    | cons c u => rfl
    | nil =>
      rcases hu with hhead | ⟨rfl, hu⟩ | hu
      · cases X <;> cases Y <;> simp_all [startsLineBreak]
      · cases hX : startsLineBreak X with
        | true => exact absurd rfl (hu hX)
        | false => exact hX
      · exact absurd hu (by decide)
  lineBreak_eq := by
    refine lineBreak_append_eq fun hopen => ?_
    rcases hu with hhead | ⟨rfl, -⟩ | hu
    · exact .inl hhead
    · exact .inr rfl
    · rcases hopen with rfl | rfl <;> exact absurd hu (by decide)
  lexeme_eq := lexeme_scan_append hj (hu.imp_right (Or.imp_left And.left))

end Escape

namespace Text.SameBefore

/-- Texts with the same front are the same up to their ends, if the front does not end in
an escape that may go on, or if the ends start alike, or if there is nothing in the place of
the end. -/
theorem append (hj : Joint X Y) {u : List Char}
    (hu : X.head? = Y.head? ∨ (Y = [] ∧ (startsLineBreak X → u.getLast? ≠ some '\\')) ∨
      Escape.isOpen u = false) : SameBefore X Y (u ++ X) (u ++ Y) := by
  induction u with
  | nil => exact here
  | cons c u ih =>
    refine cons c (fun hc => Escape.firm_append hj ?_) (ih ?_)
    · subst hc
      rcases hu with hhead | ⟨hY, hu⟩ | hu
      · exact .inl hhead
      · exact .inr (.inl ⟨hY, fun hX hnil => hu hX (by rw [hnil]; rfl)⟩)
      · simp only [Escape.isOpen, beq_self_eq_true, Bool.true_and, Bool.or_eq_false_iff] at hu
        exact .inr (.inr hu.1)
    · rcases hu with hhead | ⟨hY, hu⟩ | hu
      · exact .inl hhead
      · refine .inr (.inl ⟨hY, fun hX hlast => hu hX ?_⟩)
        rw [List.getLast?_cons, hlast]
        rfl
      · simp only [Escape.isOpen, Bool.or_eq_false_iff] at hu
        exact .inr (.inr hu.2)

end Text.SameBefore

end Typography
