import Mathlib.Data.List.TakeWhile
import Typography.Number.Numeral

/-!
# The number at the front of a text

A numeral is written as a sign, digits with a point among or behind them or digits behind a
point, and an exponent, `Numeral.IsWritten`. The digits are of a class: those of ASCII make up
the numerals that have a value, and those of every script the numerals that are read. Of both
classes the text has a longest numeral at its front, if it has one, `Numeral.IsLongest`.

The number at the front of a value is that of the longest numeral in ASCII digits, exactly if
no digit of another script makes the numeral go on, `leadingNumber?_of_isLongest`. Otherwise the
value has no number, `leadingNumber?_of_isLongest_ne`.
-/

namespace Typography

namespace Numeral

/-- The signs, and whether one is a minus. -/
inductive IsSign : Bool → List Char → Prop
  | absent : IsSign false []
  | plus : IsSign false ['+']
  | minus : IsSign true ['-']

/-- Digits before and behind a point; without a point there are none behind it. -/
inductive IsMantissa : List Char → List Char → List Char → Prop
  | whole {whole : List Char} : whole ≠ [] → IsMantissa whole [] whole
  | pointed {whole fraction : List Char} :
    whole ≠ [] ∨ fraction ≠ [] → IsMantissa whole fraction (whole ++ '.' :: fraction)

/-- The digits of an exponent behind their sign; an exponent that is not there has any sign. -/
inductive IsExponent : Bool → List Char → List Char → Prop
  | absent {isNegative : Bool} : IsExponent isNegative [] []
  | marked {isNegative : Bool} {mark : Char} {sign digits : List Char} :
    mark = 'e' ∨ mark = 'E' → IsSign isNegative sign → digits ≠ [] →
      IsExponent isNegative digits (mark :: (sign ++ digits))

/-- The text is a numeral in digits of a class. -/
inductive IsWritten (isDigit : Char → Bool) (n : Numeral) : List Char → Prop
  | intro {sign mantissa exponent : List Char} :
    IsSign n.isNegative sign → IsMantissa n.whole n.fraction mantissa →
      IsExponent n.hasNegativeExponent n.exponent exponent →
      (∀ c ∈ n.whole ++ n.fraction ++ n.exponent, isDigit c) →
      IsWritten isDigit n (sign ++ (mantissa ++ exponent))

/-- The numeral is written at the front of a text, and no longer one is. -/
structure IsLongest (isDigit : Char → Bool) (n : Numeral) (front text : List Char) : Prop where
  written : n.IsWritten isDigit front
  isPrefix : front <+: text
  length_le : ∀ (m : Numeral) (other : List Char), m.IsWritten isDigit other → other <+: text →
    other.length ≤ front.length

/-- Takes a point with the digits behind it off the front of a text. -/
def takeFraction : List Char → List Char × List Char
  | '.' :: cs => (cs.takeWhile Text.isDigit, cs.dropWhile Text.isDigit)
  | cs => ([], cs)

theorem leading?_eq (text : List Char) :
    leading? text =
      let behind := (takeSign text).2
      let whole := behind.takeWhile Text.isDigit
      let part := takeFraction (behind.dropWhile Text.isDigit)
      let exponent := takeExponent part.2
      if whole.isEmpty && part.1.isEmpty then none
      else some ⟨(takeSign text).1, whole, part.1, exponent.1, exponent.2⟩ :=
  rfl

section Parts

variable {isNegative : Bool}
  {sign whole fraction digits mantissa exponent behind tail text : List Char}

/-- A sign is taken off in front of a text that starts with none. -/
theorem takeSign_append (h : IsSign isNegative sign)
    (hbehind : ∀ c ∈ behind.head?, c ≠ '+' ∧ c ≠ '-') :
    takeSign (sign ++ behind) = (isNegative, behind) := by
  cases h with
  | absent =>
    cases behind with
    | nil => rfl
    | cons c cs =>
      obtain ⟨hplus, hminus⟩ := hbehind c rfl
      simp [takeSign, hplus, hminus]
  | plus => rfl
  | minus => rfl

theorem exists_sign (text : List Char) :
    ∃ sign, IsSign (takeSign text).1 sign ∧ sign ++ (takeSign text).2 = text := by
  unfold takeSign
  split
  · exact ⟨['-'], .minus, rfl⟩
  · exact ⟨['+'], .plus, rfl⟩
  · exact ⟨[], .absent, rfl⟩

/-- No digit is a sign. -/
theorem ne_sign_of_digits (hdigits : ∀ c ∈ digits, Text.isDigit c) (hne : digits ≠ [])
    (tail : List Char) : ∀ c ∈ (digits ++ tail).head?, c ≠ '+' ∧ c ≠ '-' := by
  obtain ⟨d, ds, rfl⟩ := List.exists_cons_of_ne_nil hne
  rintro _ ⟨⟩
  have hd := hdigits d List.mem_cons_self
  constructor <;>
  · rintro rfl
    exact absurd hd (by decide +kernel)

/-- Behind digits no more is left than behind all the digits that come next. -/
theorem length_dropWhile_le (hdigits : ∀ c ∈ digits, Text.isDigit c) (tail : List Char) :
    ((digits ++ tail).dropWhile Text.isDigit).length ≤ tail.length := by
  rw [List.dropWhile_append_of_pos hdigits]
  exact (List.dropWhile_suffix _).length_le

theorem takeExponent_of_mark {mark : Char} (hmark : mark = 'e' ∨ mark = 'E') (cs : List Char) :
    takeExponent (mark :: cs) = ((takeSign cs).1, (takeSign cs).2.takeWhile Text.isDigit) :=
  if_pos hmark

theorem takeExponent_of_not_mark {mark : Char} (hmark : ¬ (mark = 'e' ∨ mark = 'E'))
    (cs : List Char) : takeExponent (mark :: cs) = (false, []) :=
  if_neg hmark

theorem isDigit_of_mem_takeExponent (text : List Char) :
    ∀ c ∈ (takeExponent text).2, Text.isDigit c := by
  cases text with
  | nil => simp [takeExponent]
  | cons mark cs =>
    by_cases hmark : mark = 'e' ∨ mark = 'E'
    · rw [takeExponent_of_mark hmark]
      exact fun c hc => List.mem_takeWhile_imp hc
    · rw [takeExponent_of_not_mark hmark]
      simp

/-- An exponent that is there is taken off with all its digits. -/
theorem takeExponent_append (h : IsExponent isNegative digits exponent) (hne : exponent ≠ [])
    (hdigits : ∀ c ∈ digits, Text.isDigit c) (tail : List Char) :
    takeExponent (exponent ++ tail) = (isNegative, digits ++ tail.takeWhile Text.isDigit) := by
  cases h with
  | absent => exact absurd rfl hne
  | marked hmark hsign hdigit =>
    rw [List.cons_append, List.append_assoc, takeExponent_of_mark hmark,
      takeSign_append hsign (ne_sign_of_digits hdigits hdigit tail),
      List.takeWhile_append_of_pos hdigits]

/-- An exponent is taken off whole, but for a sign without digits. -/
theorem takeExponent_eq (h : IsExponent isNegative digits exponent)
    (hdigits : ∀ c ∈ digits, Text.isDigit c) :
    (takeExponent exponent).2 = digits ∧
      (digits ≠ [] → (takeExponent exponent).1 = isNegative) := by
  by_cases hnil : exponent = []
  · cases h with
    | absent => exact ⟨rfl, fun hne => absurd rfl hne⟩
    | marked => cases hnil
  · have htaken := takeExponent_append h hnil hdigits []
    rw [List.append_nil, List.takeWhile_nil, List.append_nil] at htaken
    rw [htaken]
    exact ⟨rfl, fun _ => rfl⟩

/-- The exponent that is taken off, and what is left behind it: no other exponent leaves less. -/
theorem exists_exponent (text : List Char) :
    ∃ exponent behind, IsExponent (takeExponent text).1 (takeExponent text).2 exponent ∧
      exponent ++ behind = text ∧
      ∀ {isNegative digits other tail}, IsExponent isNegative digits other →
        (∀ c ∈ digits, Text.isDigit c) → other ++ tail = text → behind.length ≤ tail.length := by
  by_cases hnil : (takeExponent text).2 = []
  · refine ⟨[], text, by rw [hnil]; exact .absent, rfl, ?_⟩
    intro isNegative digits other tail h hdigits heq
    rw [← heq] at hnil
    by_cases hother : other = []
    · rw [← heq, hother]
      rfl
    · rw [takeExponent_append h hother hdigits] at hnil
      cases h with
      | absent => exact absurd rfl hother
      | marked _ _ hne => exact absurd (List.append_eq_nil_iff.mp hnil).1 hne
  · cases text with
    | nil => exact absurd rfl hnil
    | cons mark cs =>
      have hmark : mark = 'e' ∨ mark = 'E' := by
        by_contra hmark
        exact hnil (by rw [takeExponent_of_not_mark hmark])
      obtain ⟨sign, hsign, hcs⟩ := exists_sign cs
      rw [takeExponent_of_mark hmark] at hnil ⊢
      refine ⟨mark :: (sign ++ (takeSign cs).2.takeWhile Text.isDigit),
        (takeSign cs).2.dropWhile Text.isDigit, .marked hmark hsign hnil, ?_, ?_⟩
      · rw [List.cons_append, List.append_assoc, List.takeWhile_append_dropWhile, hcs]
      · intro isNegative digits other tail h hdigits heq
        cases h with
        | absent =>
          have hle := (List.dropWhile_suffix Text.isDigit (l := (takeSign cs).2)).length_le
          have hlength := congrArg List.length hcs
          rw [show tail = mark :: cs from heq, List.length_cons]
          rw [List.length_append] at hlength
          omega
        | marked _ hsign' hne =>
          obtain ⟨-, hrest⟩ := List.cons.inj heq
          change _ ++ _ ++ tail = cs at hrest
          rw [List.append_assoc] at hrest
          rw [← hrest, takeSign_append hsign' (ne_sign_of_digits hdigits hne tail)]
          exact length_dropWhile_le hdigits tail

/-- A point with digits is taken off, and what is left behind it. -/
theorem exists_fraction (text : List Char) :
    ∃ point, point ++ (takeFraction text).2 = text ∧ (∀ c ∈ (takeFraction text).1, Text.isDigit c) ∧
      (point = [] ∧ (takeFraction text).1 = [] ∨ point = '.' :: (takeFraction text).1) := by
  unfold takeFraction
  split
  · rename_i cs
    refine ⟨'.' :: cs.takeWhile Text.isDigit, ?_, fun c hc => List.mem_takeWhile_imp hc, .inr rfl⟩
    rw [List.cons_append, List.takeWhile_append_dropWhile]
  · exact ⟨[], rfl, by simp, .inl ⟨rfl, rfl⟩⟩

theorem takeFraction_of_ne (h : ∀ c ∈ text.head?, c ≠ '.') : takeFraction text = ([], text) := by
  unfold takeFraction
  split
  · exact absurd rfl (h '.' rfl)
  · rfl

/-- No digits and no point go on in an exponent, nor at the end of a text. -/
theorem IsExponent.stops (h : IsExponent isNegative digits exponent)
    (hstops : exponent ≠ [] ∨ tail = []) :
    (exponent ++ tail).takeWhile Text.isDigit = [] ∧
      (exponent ++ tail).dropWhile Text.isDigit = exponent ++ tail ∧
      takeFraction (exponent ++ tail) = ([], exponent ++ tail) := by
  cases h with
  | absent =>
    rw [hstops.resolve_left (not_not_intro rfl)]
    exact ⟨rfl, rfl, rfl⟩
  | marked hmark =>
    rcases hmark with rfl | rfl <;>
    · refine ⟨List.takeWhile_cons_of_neg (by decide +kernel),
        List.dropWhile_cons_of_neg (by decide +kernel), takeFraction_of_ne ?_⟩
      rintro _ ⟨⟩
      decide

/-- A mantissa is taken off in front of its exponent; where neither an exponent nor the end of
the text comes next, more may be taken. -/
theorem takeFraction_append (h : IsMantissa whole fraction mantissa)
    (hdigits : ∀ c ∈ whole ++ fraction, Text.isDigit c)
    (hexponent : IsExponent isNegative digits exponent) (tail : List Char) :
    let text := mantissa ++ (exponent ++ tail)
    let part := takeFraction (text.dropWhile Text.isDigit)
    (text.takeWhile Text.isDigit ≠ [] ∨ part.1 ≠ []) ∧
      (exponent = [] ∧ tail ≠ [] ∧ part.2.length ≤ tail.length ∨
        text.takeWhile Text.isDigit = whole ∧ part = (fraction, exponent ++ tail)) := by
  intro text part
  have hwhole : ∀ c ∈ whole, Text.isDigit c := fun c hc => hdigits c (List.mem_append_left _ hc)
  have hends : (exponent ≠ [] ∨ tail = []) ∨ (exponent = [] ∧ tail ≠ []) := by
    by_cases hexponent : exponent = [] <;> by_cases htail : tail = [] <;> simp [hexponent, htail]
  cases h with
  | whole hne =>
    have htake : text.takeWhile Text.isDigit = whole ++ (exponent ++ tail).takeWhile Text.isDigit :=
      List.takeWhile_append_of_pos hwhole
    have hpart : part = takeFraction ((exponent ++ tail).dropWhile Text.isDigit) :=
      congrArg takeFraction (List.dropWhile_append_of_pos hwhole)
    refine ⟨.inl (htake ▸ List.append_ne_nil_of_left_ne_nil hne _), ?_⟩
    rcases hends with hstops | ⟨rfl, htail⟩
    · obtain ⟨hnil, hdrop, htaken⟩ := hexponent.stops hstops
      exact .inr ⟨by rw [htake, hnil, List.append_nil], by rw [hpart, hdrop, htaken]⟩
    · obtain ⟨point, hpoint, -, -⟩ := exists_fraction (tail.dropWhile Text.isDigit)
      refine .inl ⟨rfl, htail, ?_⟩
      rw [hpart, List.nil_append]
      have hle := (List.dropWhile_suffix Text.isDigit (l := tail)).length_le
      rw [← hpoint, List.length_append] at hle
      omega
  | pointed hne =>
    have hpoint : Text.isDigit '.' ≠ true := by decide +kernel
    have hfraction : ∀ c ∈ fraction, Text.isDigit c := fun c hc =>
      hdigits c (List.mem_append_right _ hc)
    have htext : text = whole ++ '.' :: (fraction ++ (exponent ++ tail)) := by simp [text]
    have htake : text.takeWhile Text.isDigit = whole := by
      rw [htext, List.takeWhile_append_of_pos hwhole, List.takeWhile_cons_of_neg hpoint,
        List.append_nil]
    have hpart : part = (fraction ++ (exponent ++ tail).takeWhile Text.isDigit,
        (exponent ++ tail).dropWhile Text.isDigit) := by
      change takeFraction (text.dropWhile Text.isDigit) = _
      rw [htext, List.dropWhile_append_of_pos hwhole, List.dropWhile_cons_of_neg hpoint,
        takeFraction, List.takeWhile_append_of_pos hfraction,
        List.dropWhile_append_of_pos hfraction]
    rw [htake, hpart]
    refine ⟨hne.imp_right fun hne => List.append_ne_nil_of_left_ne_nil hne _, ?_⟩
    rcases hends with hstops | ⟨rfl, htail⟩
    · obtain ⟨hnil, hdrop, -⟩ := hexponent.stops hstops
      exact .inr ⟨rfl, by rw [hnil, hdrop, List.append_nil]⟩
    · exact .inl ⟨rfl, htail, (List.dropWhile_suffix _).length_le⟩

/-- A mantissa starts with a digit or a point. -/
theorem IsMantissa.ne_sign (h : IsMantissa whole fraction mantissa)
    (hdigits : ∀ c ∈ whole ++ fraction, Text.isDigit c) (tail : List Char) :
    ∀ c ∈ (mantissa ++ tail).head?, c ≠ '+' ∧ c ≠ '-' := by
  have hwhole : ∀ c ∈ whole, Text.isDigit c := fun c hc => hdigits c (List.mem_append_left _ hc)
  cases h with
  | whole hne => exact ne_sign_of_digits hwhole hne tail
  | pointed =>
    by_cases hne : whole = []
    · rw [hne]
      rintro _ ⟨⟩
      decide
    · rw [List.append_assoc]
      exact ne_sign_of_digits hwhole hne _

end Parts

/-! ### The longest numeral of a text -/

section Longest

variable {isDigit isDigit' : Char → Bool} {n m : Numeral} {front other text tail : List Char}

/-- A numeral belongs to every class that its digits are of. -/
theorem IsWritten.of_digits (h : n.IsWritten isDigit front)
    (hdigits : ∀ c ∈ n.whole ++ n.fraction ++ n.exponent, isDigit' c) :
    n.IsWritten isDigit' front := by
  obtain ⟨hsign, hmantissa, hexponent, -⟩ := h
  exact .intro hsign hmantissa hexponent hdigits

theorem IsWritten.isDigit_of_mem (h : n.IsWritten isDigit front) :
    ∀ c ∈ n.whole ++ n.fraction ++ n.exponent, isDigit c := by
  cases h
  assumption

theorem IsWritten.of_isAscii (h : n.IsWritten Char.isDigit front) :
    n.IsWritten Text.isDigit front :=
  h.of_digits fun c hc => Text.isDigit_of_isAsciiDigit (h.isDigit_of_mem c hc)

/-- Where a numeral stands, a longest one stands. -/
theorem exists_isLongest {n : Numeral} {front : List Char} (h : n.IsWritten isDigit front)
    (hleads : front <+: text) :
    ∃ (m : Numeral) (other : List Char), m.IsLongest isDigit other text := by
  by_cases hlongest : ∀ (m : Numeral) other, m.IsWritten isDigit other → other <+: text →
      other.length ≤ front.length
  · exact ⟨n, front, h, hleads, hlongest⟩
  · simp only [not_forall, not_le] at hlongest
    obtain ⟨m, other, hm, hother, hlt⟩ := hlongest
    exact exists_isLongest hm hother
termination_by text.length - front.length
decreasing_by
  have := hother.length_le
  omega

/-- What is taken off a text with a numeral at its front. -/
theorem IsWritten.takeFraction_append (h : m.IsWritten Text.isDigit other) (tail : List Char) :
    let behind := (takeSign (other ++ tail)).2
    let part := takeFraction (behind.dropWhile Text.isDigit)
    (takeSign (other ++ tail)).1 = m.isNegative ∧
      (behind.takeWhile Text.isDigit ≠ [] ∨ part.1 ≠ []) ∧
      ∃ exponent, IsExponent m.hasNegativeExponent m.exponent exponent ∧
        (exponent = [] ∧ tail ≠ [] ∧ part.2.length ≤ tail.length ∨
          behind.takeWhile Text.isDigit = m.whole ∧ part = (m.fraction, exponent ++ tail)) := by
  obtain @⟨sign, mantissa, exponent, hsign, hmantissa, hexponent, hdigits⟩ := h
  have hmain : ∀ c ∈ m.whole ++ m.fraction, Text.isDigit c := fun c hc =>
    hdigits c (List.mem_append_left _ hc)
  have htaken : takeSign (sign ++ (mantissa ++ exponent) ++ tail) =
      (m.isNegative, mantissa ++ (exponent ++ tail)) := by
    rw [List.append_assoc, List.append_assoc,
      takeSign_append hsign (hmantissa.ne_sign hmain (exponent ++ tail))]
  obtain ⟨hne, hleft⟩ := Numeral.takeFraction_append hmantissa hmain hexponent tail
  rw [htaken]
  exact ⟨rfl, hne, exponent, hexponent, hleft⟩

/-- What is read from a text is the longest numeral at its front, in digits of every script. -/
theorem exists_isLongest_of_leading? (h : leading? text = some n) :
    ∃ front, n.IsLongest Text.isDigit front text := by
  obtain ⟨sign, hsign, htext⟩ := exists_sign text
  rw [leading?_eq] at h
  dsimp only at h
  generalize hbehind : (takeSign text).2 = behind at h htext
  obtain ⟨point, hpoint, hfraction, hkind⟩ := exists_fraction (behind.dropWhile Text.isDigit)
  generalize hpart : takeFraction (behind.dropWhile Text.isDigit) = part at h hpoint hfraction hkind
  obtain ⟨exponent, rest, hexponent, hrest, hleast⟩ := exists_exponent part.2
  split at h
  · cases h
  rename_i hempty
  obtain rfl := Option.some.inj h
  have hne : behind.takeWhile Text.isDigit ≠ [] ∨ part.1 ≠ [] := by
    simpa [-List.takeWhile_eq_nil_iff, or_iff_not_imp_left] using hempty
  have hsplit : sign ++ (behind.takeWhile Text.isDigit ++ point ++ exponent) ++ rest = text := by
    rw [List.append_assoc, List.append_assoc, List.append_assoc, hrest, hpoint,
      List.takeWhile_append_dropWhile, htext]
  have hmantissa : IsMantissa (behind.takeWhile Text.isDigit) part.1
      (behind.takeWhile Text.isDigit ++ point) := by
    rcases hkind with ⟨rfl, hnil⟩ | rfl
    · rw [hnil, List.append_nil]
      exact .whole (hne.resolve_right (not_not_intro hnil))
    · exact .pointed hne
  refine ⟨_, .intro hsign hmantissa hexponent ?_, ⟨rest, hsplit⟩, ?_⟩
  · intro c hc
    rw [List.append_assoc, List.mem_append, List.mem_append] at hc
    rcases hc with hc | hc | hc
    · exact List.mem_takeWhile_imp hc
    · exact hfraction c hc
    · exact isDigit_of_mem_takeExponent _ c hc
  · rintro m other hother ⟨tail, rfl⟩
    obtain ⟨-, -, exponent', hexponent', hleft⟩ := hother.takeFraction_append tail
    rw [hbehind, hpart] at hleft
    have hle : rest.length ≤ tail.length := by
      rcases hleft with ⟨-, -, hle⟩ | ⟨-, rfl⟩
      · rw [← hrest, List.length_append] at hle
        omega
      · have hdigits : ∀ c ∈ m.exponent, Text.isDigit c := fun c hc =>
          hother.isDigit_of_mem c (List.mem_append_right _ hc)
        exact hleast hexponent' hdigits rfl
    have hlength := congrArg List.length hsplit
    simp only [List.length_append] at hlength ⊢
    omega

/-- The sign of an exponent without digits makes no difference. -/
theorem number_eq (hsign : m.isNegative = n.isNegative) (hwhole : m.whole = n.whole)
    (hfraction : m.fraction = n.fraction) (hexponent : m.exponent = n.exponent)
    (hnegative : n.exponent ≠ [] → m.hasNegativeExponent = n.hasNegativeExponent) :
    m.number = n.number := by
  have hscale : m.scale = n.scale := by
    rw [scale, scale, hfraction, hexponent]
    by_cases hnil : n.exponent = []
    · simp [hnil, ofDigits]
    · rw [hnegative hnil]
  rw [number, number, hsign, hwhole, hfraction, hscale]

/-- A numeral that is all there is of a text is read from it. -/
theorem IsWritten.exists_leading?_eq (h : n.IsWritten Text.isDigit text) :
    ∃ m, leading? text = some m ∧ m.number = n.number ∧
      m.whole ++ m.fraction ++ m.exponent = n.whole ++ n.fraction ++ n.exponent := by
  obtain ⟨hsign, hne, exponent, hexponent, hleft⟩ := h.takeFraction_append []
  rw [List.append_nil] at hsign hne hleft
  obtain ⟨hwhole, hpart⟩ := hleft.resolve_left fun h => h.2.1 rfl
  have htaken := takeExponent_eq hexponent fun c hc =>
    h.isDigit_of_mem c (List.mem_append_right _ hc)
  have hempty : ¬ (n.whole.isEmpty && n.fraction.isEmpty) = true := by
    rw [hwhole, hpart] at hne
    simpa [or_iff_not_imp_left] using hne
  rw [leading?_eq]
  dsimp only
  rw [hwhole, hpart, List.append_nil, if_neg hempty]
  refine ⟨_, rfl, number_eq hsign rfl rfl htaken.1 htaken.2, ?_⟩
  rw [htaken.1]

/-- No numeral stands at the front of a text from which none is read. -/
theorem not_isWritten_of_leading? (h : leading? text = none) (hleads : other <+: text) :
    ¬ m.IsWritten Text.isDigit other := by
  intro hother
  obtain ⟨tail, rfl⟩ := hleads
  obtain ⟨-, hne, -⟩ := hother.takeFraction_append tail
  rw [leading?_eq] at h
  simp [-List.takeWhile_eq_nil_iff] at h
  rcases hne with hne | hne
  · exact hne h.1
  · exact hne h.2

/-- The longest numeral of a text is read, and its number. -/
theorem IsLongest.exists_leading?_eq (h : n.IsLongest Text.isDigit front text) :
    ∃ m, leading? text = some m ∧ m.number = n.number ∧
      m.whole ++ m.fraction ++ m.exponent = n.whole ++ n.fraction ++ n.exponent := by
  cases hread : leading? text with
  | none => exact absurd h.written (not_isWritten_of_leading? hread h.isPrefix)
  | some m =>
    obtain ⟨other, hother⟩ := exists_isLongest_of_leading? hread
    have hlength := Nat.le_antisymm (h.length_le m other hother.written hother.isPrefix)
      (hother.length_le n front h.written h.isPrefix)
    obtain rfl : other = front :=
      (List.prefix_of_prefix_length_le hother.isPrefix h.isPrefix hlength.le).eq_of_length hlength
    obtain ⟨k, hk, hnumber, hdigits⟩ := h.written.exists_leading?_eq
    obtain ⟨k', hk', hnumber', hdigits'⟩ := hother.written.exists_leading?_eq
    obtain rfl : k = k' := Option.some.inj (hk.symm.trans hk')
    exact ⟨m, rfl, hnumber'.symm.trans hnumber, hdigits'.symm.trans hdigits⟩

/-- A numeral has a number if and only if its digits are those of ASCII. -/
theorem value?_eq_some_iff {x : Float} :
    n.value? = some x ↔
      (∀ c ∈ n.whole ++ n.fraction ++ n.exponent, c.isDigit) ∧ n.number = x := by
  simp only [value?, List.all_eq_true, Option.ite_none_right_eq_some, Option.some.injEq]

end Longest

end Numeral

/-- A value with a number starts with a numeral in ASCII digits, behind its leading blanks. -/
theorem exists_isLongest_of_leadingNumber? {value : List Char} {x : Float}
    (h : leadingNumber? value = some x) :
    ∃ (n : Numeral) (front : List Char),
      n.IsLongest Char.isDigit front (Text.trimStart value) ∧
        n.IsLongest Text.isDigit front (Text.trimStart value) ∧ n.number = x := by
  obtain ⟨n, hread, hn⟩ := Option.bind_eq_some_iff.mp h
  obtain ⟨hdigits, hnumber⟩ := Numeral.value?_eq_some_iff.mp hn
  obtain ⟨front, hfront⟩ := Numeral.exists_isLongest_of_leading? hread
  exact ⟨n, front, ⟨hfront.written.of_digits hdigits, hfront.isPrefix, fun m other hm hother =>
    hfront.length_le m other hm.of_isAscii hother⟩, hfront, hnumber⟩

/-- For every value, where its leading blanks are left out. If a numeral in ASCII digits stands at
the front, the value has the number of the longest one exactly if that is the longest one in
digits of every script as well, and otherwise no number; if none stands there, it has none. -/
theorem leadingNumber?_of_isLongest (value : List Char) :
    (∀ (n : Numeral) (front : List Char), n.IsLongest Char.isDigit front (Text.trimStart value) →
      (leadingNumber? value = some n.number ↔
          n.IsLongest Text.isDigit front (Text.trimStart value)) ∧
        (leadingNumber? value = none ↔
          ¬ n.IsLongest Text.isDigit front (Text.trimStart value))) ∧
      ((∀ (n : Numeral) (front : List Char), front <+: Text.trimStart value →
          ¬ n.IsWritten Char.isDigit front) →
        leadingNumber? value = none) := by
  constructor
  · intro n front h
    have hlongest : ∀ x, leadingNumber? value = some x →
        n.IsLongest Text.isDigit front (Text.trimStart value) := by
      intro x hx
      obtain ⟨m, other, hascii, hother, -⟩ := exists_isLongest_of_leadingNumber? hx
      have hle := h.length_le m other hascii.written hother.isPrefix
      exact ⟨h.written.of_isAscii, h.isPrefix, fun k third hk hthird =>
        (hother.length_le k third hk hthird).trans hle⟩
    have hnumber : n.IsLongest Text.isDigit front (Text.trimStart value) →
        leadingNumber? value = some n.number := by
      intro hscript
      obtain ⟨m, hread, hnumber, hdigits⟩ := hscript.exists_leading?_eq
      refine Option.bind_eq_some_iff.mpr ⟨m, hread, Numeral.value?_eq_some_iff.mpr ⟨?_, hnumber⟩⟩
      rw [hdigits]
      exact h.written.isDigit_of_mem
    refine ⟨⟨hlongest _, hnumber⟩, fun hnone hscript => ?_, fun hscript => ?_⟩
    · rw [hnumber hscript] at hnone
      cases hnone
    · by_contra hsome
      obtain ⟨x, hx⟩ := Option.ne_none_iff_exists'.mp hsome
      exact hscript (hlongest x hx)
  · intro hnone
    by_contra hsome
    obtain ⟨x, hx⟩ := Option.ne_none_iff_exists'.mp hsome
    obtain ⟨n, front, h, -, -⟩ := exists_isLongest_of_leadingNumber? hx
    exact hnone n front h.isPrefix h.written

/-- A sign, a fraction and an exponent behind a blank, and a value that starts with its unit. -/
theorem leadingNumber?_of_isLongest_ofExponent :
    (∃ (n : Numeral) (front : List Char),
      n.IsLongest Char.isDigit front (Text.trimStart " -1.5e3px".toList) ∧
        leadingNumber? " -1.5e3px".toList = some n.number ∧ n.number = -1500) ∧
      (∀ (n : Numeral) (front : List Char), front <+: Text.trimStart "px1".toList →
        ¬ n.IsWritten Char.isDigit front) ∧
      leadingNumber? "px1".toList = none := by
  have hread : Numeral.leading? (Text.trimStart " -1.5e3px".toList) =
      some ⟨true, ['1'], ['5'], false, ['3']⟩ := by decide +kernel
  obtain ⟨front, hfront⟩ := Numeral.exists_isLongest_of_leading? hread
  have hascii : Numeral.IsLongest Char.isDigit ⟨true, ['1'], ['5'], false, ['3']⟩ front
      (Text.trimStart " -1.5e3px".toList) :=
    ⟨hfront.written.of_digits (List.all_eq_true.mp rfl), hfront.isPrefix, fun m other hm hother =>
      hfront.length_le m other hm.of_isAscii hother⟩
  have hnone : ∀ (n : Numeral) (front : List Char), front <+: Text.trimStart "px1".toList →
      ¬ n.IsWritten Char.isDigit front := fun n front hleads h =>
    Numeral.not_isWritten_of_leading? (by decide +kernel) hleads h.of_isAscii
  exact ⟨⟨_, front, hascii, ((leadingNumber?_of_isLongest _).1 _ front hascii).1.mpr hfront,
    by decide +kernel⟩, hnone, (leadingNumber?_of_isLongest _).2 hnone⟩

/-- A digit of another script takes the number away from a value that starts with one. -/
theorem leadingNumber?_of_isLongest_ne :
    ¬ ∀ (n : Numeral) (front : List Char),
      n.IsLongest Char.isDigit front (Text.trimStart "1\u0663px".toList) →
        leadingNumber? "1\u0663px".toList = some n.number := by
  intro hclaim
  have hread : Numeral.leading? ['1'] = some ⟨false, ['1'], [], false, []⟩ := by decide +kernel
  obtain ⟨front, hfront⟩ := Numeral.exists_isLongest_of_leading? hread
  have hascii : Numeral.IsWritten Char.isDigit ⟨false, ['1'], [], false, []⟩ front :=
    hfront.written.of_digits (List.all_eq_true.mp rfl)
  obtain ⟨n, front, h⟩ := Numeral.exists_isLongest hascii
    (hfront.isPrefix.trans (show ['1'] <+: Text.trimStart "1\u0663px".toList by decide +kernel))
  have hnone : leadingNumber? "1\u0663px".toList = none := by decide +kernel
  cases hnone.symm.trans (hclaim n front h)

end Typography
