import Mathlib.Data.List.TakeWhile
import Mathlib.Data.Option.Basic
import Typography.Options.Json

/-!
# Options survive JSON

Next to the functions that read options stands the grammar of the texts that they read, and each
of them reads exactly what its part of the grammar describes: strings, then the root size, then
the object or array around it, then the whole text. What is written for options is one of these
texts, so it is read back, whatever characters the root size has. The other forms, with
whitespace, with other escapes, with `null` or as an array, are read as options whose own text is
read as the same.
-/

namespace Typography.Options.Json

/-- What stands between the quotes of a string, and the text that it stands for: a character
stands for itself unless it is a quote, a backslash or a control character; a backslash starts an
escape, of one letter, of a code point in four hexadecimal digits, or of two halves of a surrogate
pair. -/
inductive Spells : List Char → List Char → Prop
  | nil : Spells [] []
  | plain {c : Char} {body text : List Char} :
    ' ' ≤ c → c ≠ '"' → c ≠ '\\' → Spells body text → Spells (c :: body) (c :: text)
  | letter {c ch : Char} {body text : List Char} :
    escapedChar? c = some ch → Spells body text → Spells ('\\' :: c :: body) (ch :: text)
  | code {a b c d ch : Char} {n : Nat} {body text : List Char} :
    Text.hexNumber? [a, b, c, d] = some n → Text.charOf? n = some ch → Spells body text →
      Spells ('\\' :: 'u' :: a :: b :: c :: d :: body) (ch :: text)
  | pair {a b c d a' b' c' d' ch : Char} {high low : Nat} {body text : List Char} :
    Text.hexNumber? [a, b, c, d] = some high → Text.hexNumber? [a', b', c', d'] = some low →
      ofSurrogates? high low = some ch → Spells body text →
      Spells ('\\' :: 'u' :: a :: b :: c :: d :: '\\' :: 'u' :: a' :: b' :: c' :: d' :: body)
        (ch :: text)

theorem charOf?_eq_none_of_ofSurrogates? {high low : Nat} {ch : Char}
    (h : ofSurrogates? high low = some ch) : Text.charOf? high = none := by
  unfold ofSurrogates? at h
  split at h
  · rename_i hhalves
    simp only [isHighSurrogate, isLowSurrogate, Bool.and_eq_true, decide_eq_true_eq] at hhalves
    rw [Text.charOf?, if_neg]
    simp only [Nat.isValidChar]
    omega
  · cases h

theorem readString?_of_spells {body text : List Char} (h : Spells body text) (rest : List Char) :
    readString? (body ++ '"' :: rest) = some (text, rest) := by
  induction h with
  | nil => rfl
  | plain hc hquote hslash _ ih =>
    rw [List.cons_append, readString?]
    · exact Option.bind_eq_some_iff.mpr
        ⟨(), if_pos hc, Option.bind_eq_some_iff.mpr ⟨_, ih, rfl⟩⟩
    all_goals simp [hquote, hslash]
  | @letter c ch body text hc _ ih =>
    rw [List.cons_append, List.cons_append, readString?]
    · simp [hc, ih]
    · rintro a b c' d cs rfl
      simp [escapedChar?] at hc
  | code hn hch _ ih =>
    simp only [List.cons_append, readString?]
    simp [hn, hch, ih]
  | pair hhigh hlow hch _ ih =>
    simp only [List.cons_append, readString?]
    simp [hhigh, hlow, hch, charOf?_eq_none_of_ofSurrogates? hch, ih]

theorem exists_of_readString? {cs text rest : List Char} (h : readString? cs = some (text, rest)) :
    ∃ body, cs = body ++ '"' :: rest ∧ Spells body text := by
  fun_induction readString? cs generalizing text rest with
  | case1 => cases h
  | case2 cs =>
    cases h
    exact ⟨[], rfl, .nil⟩
  | case3 a b c d cs ih ihpair =>
    obtain ⟨n, hn, h⟩ := Option.bind_eq_some_iff.mp h
    split at h
    · rename_i ch hch
      obtain ⟨⟨text', rest'⟩, hread, h⟩ := Option.bind_eq_some_iff.mp h
      cases h
      obtain ⟨body, rfl, hbody⟩ := ih hread
      exact ⟨_, rfl, .code hn hch hbody⟩
    · rename_i hnone
      split at h
      · rename_i a' b' c' d' cs
        obtain ⟨low, hlow, h⟩ := Option.bind_eq_some_iff.mp h
        obtain ⟨ch, hch, h⟩ := Option.bind_eq_some_iff.mp h
        obtain ⟨⟨text', rest'⟩, hread, h⟩ := Option.bind_eq_some_iff.mp h
        cases h
        obtain ⟨body, rfl, hbody⟩ := ihpair hread
        exact ⟨_, rfl, .pair hn hlow hch hbody⟩
      · cases h
  | case4 c cs hcode ih =>
    obtain ⟨ch, hch, h⟩ := Option.bind_eq_some_iff.mp h
    obtain ⟨⟨text', rest'⟩, hread, h⟩ := Option.bind_eq_some_iff.mp h
    cases h
    obtain ⟨body, rfl, hbody⟩ := ih hread
    exact ⟨_, rfl, .letter hch hbody⟩
  | case5 c cs hquote hcode hletter ih =>
    obtain ⟨_, hc, h⟩ := Option.bind_eq_some_iff.mp h
    obtain ⟨⟨text', rest'⟩, hread, h⟩ := Option.bind_eq_some_iff.mp h
    cases h
    obtain ⟨body, rfl, hbody⟩ := ih hread
    refine ⟨c :: body, rfl, .plain ((Option.guard_eq_some' _).mp hc) hquote ?_ hbody⟩
    -- a backslash starts an escape, so what comes behind it would have been read with it
    rintro rfl
    cases body with
    | nil => exact hletter _ _ rfl rfl
    | cons c' body => exact hletter _ _ rfl rfl

/-! ### Texts of options -/

/-- Whitespace of JSON. -/
def AreSpaces (s : List Char) : Prop :=
  ∀ c ∈ s, isSpace c

/-- How a root size is written: as `null` or as a string. -/
inductive IsRootSize : Option String → List Char → Prop
  | null : IsRootSize none ['n', 'u', 'l', 'l']
  | string {body text : List Char} : Spells body text →
    IsRootSize (some (String.ofList text)) ('"' :: (body ++ ['"']))

/-- How options are written: as an object without members or with the root size alone, or as an
array that is empty or has the root size as its one element. -/
inductive IsContainer : Options → List Char → Prop
  | emptyObject {s : List Char} : AreSpaces s → IsContainer ⟨none⟩ ('{' :: (s ++ ['}']))
  | object {s₁ s₂ s₃ s₄ key size : List Char} {rootSize : Option String} :
    AreSpaces s₁ → AreSpaces s₂ → AreSpaces s₃ → AreSpaces s₄ → Spells key rootSizeKey →
      IsRootSize rootSize size →
      IsContainer ⟨rootSize⟩ ('{' :: (s₁ ++ '"' :: (key ++ '"' ::
        (s₂ ++ ':' :: (s₃ ++ (size ++ (s₄ ++ ['}'])))))))
  | emptyArray {s : List Char} : AreSpaces s → IsContainer ⟨none⟩ ('[' :: (s ++ [']']))
  | array {s₁ s₂ size : List Char} {rootSize : Option String} :
    AreSpaces s₁ → AreSpaces s₂ → IsRootSize rootSize size →
      IsContainer ⟨rootSize⟩ ('[' :: (s₁ ++ (size ++ (s₂ ++ [']']))))

/-- A text of options, with whitespace around it. -/
def IsText (options : Options) (text : String) : Prop :=
  ∃ s₁ container s₂, text.toList = s₁ ++ (container ++ s₂) ∧ AreSpaces s₁ ∧ AreSpaces s₂ ∧
    IsContainer options container

theorem areSpaces_takeWhile (cs : List Char) : AreSpaces (cs.takeWhile isSpace) :=
  fun _ hc => List.mem_takeWhile_imp hc

/-- Whitespace is skipped up to the first other character. -/
theorem skipSpace_append_cons {s : List Char} (hs : AreSpaces s) {c : Char}
    (hc : isSpace c = false) (cs : List Char) : skipSpace (s ++ c :: cs) = c :: cs := by
  rw [skipSpace, List.dropWhile_append_of_pos hs, List.dropWhile_cons_of_neg (by simp [hc])]

theorem exists_skipSpace (cs : List Char) : ∃ s, AreSpaces s ∧ cs = s ++ skipSpace cs :=
  ⟨cs.takeWhile isSpace, areSpaces_takeWhile cs, List.takeWhile_append_dropWhile.symm⟩

theorem readRootSize?_eq_some_iff {cs rest : List Char} {rootSize : Option String} :
    readRootSize? cs = some (rootSize, rest) ↔
      ∃ size, cs = size ++ rest ∧ IsRootSize rootSize size := by
  constructor
  · intro h
    unfold readRootSize? at h
    split at h
    · obtain ⟨⟨text, rest'⟩, hread, h⟩ := Option.map_eq_some_iff.mp h
      cases h
      obtain ⟨body, rfl, hbody⟩ := exists_of_readString? hread
      exact ⟨'"' :: (body ++ ['"']), by simp, .string hbody⟩
    · cases h
      exact ⟨_, rfl, .null⟩
    · cases h
  · rintro ⟨size, rfl, hsize⟩
    cases hsize with
    | null => rfl
    | string hbody =>
      rw [List.cons_append, List.append_assoc, readRootSize?, List.singleton_append,
        readString?_of_spells hbody, Option.map_some]

/-- A root size starts with no whitespace and with no bracket. -/
theorem IsRootSize.exists_cons {rootSize : Option String} {size : List Char}
    (h : IsRootSize rootSize size) :
    ∃ c cs, size = c :: cs ∧ isSpace c = false ∧ c ≠ ']' := by
  cases h with
  | null => exact ⟨_, _, rfl, rfl, by decide⟩
  | string => exact ⟨_, _, rfl, rfl, by decide⟩

theorem exists_of_readMember? {cs rest : List Char} {rootSize : Option String}
    (h : readMember? cs = some (rootSize, rest)) :
    ∃ s₂ s₃ s₄ key size : List Char, AreSpaces s₂ ∧ AreSpaces s₃ ∧ AreSpaces s₄ ∧
      Spells key rootSizeKey ∧ IsRootSize rootSize size ∧
        cs = key ++ '"' :: (s₂ ++ ':' :: (s₃ ++ (size ++ (s₄ ++ rest)))) := by
  obtain ⟨⟨key, behind⟩, hkey, hmember⟩ := Option.bind_eq_some_iff.mp h
  obtain ⟨_, hguard, hvalue⟩ := Option.bind_eq_some_iff.mp hmember
  obtain ⟨spelled, rfl, hspelled⟩ := exists_of_readString? hkey
  obtain ⟨s₂, hs₂, hbehind⟩ := exists_skipSpace behind
  split at hvalue
  · rename_i value hcolon
    obtain ⟨⟨read, behind'⟩, hread, hsome⟩ := Option.bind_eq_some_iff.mp hvalue
    cases hsome
    obtain ⟨size, hsize, hrootSize⟩ := readRootSize?_eq_some_iff.mp hread
    obtain ⟨s₃, hs₃, hvalue'⟩ := exists_skipSpace value
    obtain ⟨s₄, hs₄, hrest⟩ := exists_skipSpace behind'
    rw [(Option.guard_eq_some' _).mp hguard] at hspelled
    refine ⟨s₂, s₃, s₄, spelled, size, hs₂, hs₃, hs₄, hspelled, hrootSize, ?_⟩
    rw [← hrest, ← hsize, ← hvalue', ← hcolon, ← hbehind]
  · cases hvalue

theorem readMember?_of {s₂ s₃ s₄ key size : List Char} {rootSize : Option String} {c : Char}
    (hs₂ : AreSpaces s₂) (hs₃ : AreSpaces s₃) (hs₄ : AreSpaces s₄) (hkey : Spells key rootSizeKey)
    (hsize : IsRootSize rootSize size) (hc : isSpace c = false) (rest : List Char) :
    readMember? (key ++ '"' :: (s₂ ++ ':' :: (s₃ ++ (size ++ (s₄ ++ c :: rest))))) =
      some (rootSize, c :: rest) := by
  have hvalue : skipSpace (s₃ ++ (size ++ (s₄ ++ c :: rest))) = size ++ (s₄ ++ c :: rest) := by
    obtain ⟨first, behind, rfl, hfirst, -⟩ := hsize.exists_cons
    exact skipSpace_append_cons hs₃ hfirst _
  refine Option.bind_eq_some_iff.mpr ⟨(rootSizeKey, _), readString?_of_spells hkey _, ?_⟩
  refine Option.bind_eq_some_iff.mpr ⟨(), if_pos rfl, ?_⟩
  rw [skipSpace_append_cons hs₂ rfl]
  refine Option.bind_eq_some_iff.mpr ⟨(rootSize, s₄ ++ c :: rest), ?_, ?_⟩
  · rw [hvalue]
    exact readRootSize?_eq_some_iff.mpr ⟨size, rfl, hsize⟩
  · exact congrArg (fun behind => some (rootSize, behind)) (skipSpace_append_cons hs₄ hc rest)

theorem exists_of_readContainer? {cs rest : List Char} {rootSize : Option String}
    (h : readContainer? cs = some (rootSize, rest)) :
    ∃ container, cs = container ++ rest ∧ IsContainer ⟨rootSize⟩ container := by
  unfold readContainer? at h
  split at h
  · rename_i inside
    obtain ⟨s₁, hs₁, hinside⟩ := exists_skipSpace inside
    split at h
    · rename_i hclose
      cases h
      exact ⟨_, by rw [hinside, hclose]; simp, .emptyObject hs₁⟩
    · rename_i member hmember
      obtain ⟨⟨read, behind⟩, hread, hclose⟩ := Option.bind_eq_some_iff.mp h
      dsimp only at hclose
      split at hclose
      · cases hclose
        obtain ⟨s₂, s₃, s₄, key, size, hs₂, hs₃, hs₄, hkey, hsize, rfl⟩ :=
          exists_of_readMember? hread
        exact ⟨_, by rw [hinside, hmember]; simp, .object hs₁ hs₂ hs₃ hs₄ hkey hsize⟩
      · cases hclose
    · cases h
  · rename_i inside
    obtain ⟨s₁, hs₁, hinside⟩ := exists_skipSpace inside
    split at h
    · rename_i hclose
      cases h
      exact ⟨_, by rw [hinside, hclose]; simp, .emptyArray hs₁⟩
    · obtain ⟨⟨read, behind⟩, hread, hbracket⟩ := Option.bind_eq_some_iff.mp h
      obtain ⟨s₂, hs₂, hbehind⟩ := exists_skipSpace behind
      dsimp only at hbracket
      split at hbracket
      · rename_i hclose
        cases hbracket
        obtain ⟨size, hsize, hrootSize⟩ := readRootSize?_eq_some_iff.mp hread
        exact ⟨_, by rw [hinside, hsize, hbehind, hclose]; simp, .array hs₁ hs₂ hrootSize⟩
      · cases hbracket
  · cases h

theorem readContainer?_of {container : List Char} {rootSize : Option String}
    (h : IsContainer ⟨rootSize⟩ container) (rest : List Char) :
    readContainer? (container ++ rest) = some (rootSize, rest) := by
  cases h with
  | emptyObject hs =>
    rw [List.cons_append, List.append_assoc, List.singleton_append, readContainer?,
      skipSpace_append_cons hs rfl]
    rfl
  | object hs₁ hs₂ hs₃ hs₄ hkey hsize =>
    simp only [List.cons_append, List.append_assoc, readContainer?, List.nil_append]
    rw [skipSpace_append_cons hs₁ rfl]
    exact Option.bind_eq_some_iff.mpr ⟨_, readMember?_of hs₂ hs₃ hs₄ hkey hsize rfl rest, rfl⟩
  | emptyArray hs =>
    rw [List.cons_append, List.append_assoc, List.singleton_append, readContainer?,
      skipSpace_append_cons hs rfl]
    rfl
  | @array s₁ s₂ size _ hs₁ hs₂ hsize =>
    obtain ⟨c, cs, rfl, hc, hne⟩ := hsize.exists_cons
    have hread : readRootSize? (c :: (cs ++ (s₂ ++ ']' :: rest))) =
        some (rootSize, s₂ ++ ']' :: rest) :=
      readRootSize?_eq_some_iff.mpr ⟨c :: cs, rfl, hsize⟩
    simp only [List.cons_append, List.append_assoc, readContainer?, List.nil_append]
    rw [skipSpace_append_cons hs₁ hc]
    split
    · rename_i hclose
      exact absurd (List.cons.inj hclose).1 hne
    · refine Option.bind_eq_some_iff.mpr ⟨_, hread, ?_⟩
      rw [skipSpace_append_cons hs₂ rfl]
      rfl

/-- The brackets start with no whitespace. -/
theorem IsContainer.exists_cons {options : Options} {container : List Char}
    (h : IsContainer options container) : ∃ c cs, container = c :: cs ∧ isSpace c = false := by
  cases h <;> exact ⟨_, _, rfl, rfl⟩

/-- A text is read as options exactly if it is a text of these options. -/
theorem decode?_eq_some_iff {text : String} {options : Options} :
    decode? text = some options ↔ IsText options text := by
  constructor
  · intro h
    obtain ⟨⟨rootSize, rest⟩, hread, h⟩ := Option.bind_eq_some_iff.mp h
    obtain ⟨_, hguard, h⟩ := Option.bind_eq_some_iff.mp h
    cases h
    obtain ⟨container, hcontainer, hoptions⟩ := exists_of_readContainer? hread
    obtain ⟨s₁, hs₁, htext⟩ := exists_skipSpace text.toList
    obtain ⟨s₂, hs₂, hrest⟩ := exists_skipSpace rest
    have hnil : skipSpace rest = [] := List.isEmpty_iff.mp ((Option.guard_eq_some' _).mp hguard)
    rw [hnil, List.append_nil] at hrest
    exact ⟨s₁, container, rest, by rw [htext, hcontainer], hs₁, hrest ▸ hs₂, hoptions⟩
  · rintro ⟨s₁, container, s₂, htext, hs₁, hs₂, h⟩
    have hskip : skipSpace text.toList = container ++ s₂ := by
      obtain ⟨c, cs, rfl, hc⟩ := h.exists_cons
      rw [htext]
      exact skipSpace_append_cons hs₁ hc _
    have hend : skipSpace s₂ = [] := List.dropWhile_eq_nil_iff.mpr hs₂
    refine Option.bind_eq_some_iff.mpr ⟨(options.rootSize, s₂), ?_, ?_⟩
    · rw [hskip]
      exact readContainer?_of h s₂
    · exact Option.bind_eq_some_iff.mpr ⟨(), if_pos (List.isEmpty_iff.mpr hend), rfl⟩

/-! ### Texts that are written -/

theorem hexValue?_hexDigit : ∀ n < 16, Text.hexValue? (hexDigit n) = some n := by
  decide

theorem hexNumber?_hexDigits {n : Nat} (h : n < 256) :
    Text.hexNumber? ['0', '0', hexDigit (n / 16), hexDigit (n % 16)] = some n := by
  have hzero : Text.hexValue? '0' = some 0 := rfl
  simp only [Text.hexNumber?, List.foldlM_cons, List.foldlM_nil, hzero,
    hexValue?_hexDigit (n / 16) (by omega), hexValue?_hexDigit (n % 16) (by omega),
    Option.map_some, Option.bind_eq_bind, Option.bind_some, Option.pure_def]
  congr 1
  omega

theorem charOf?_toNat (c : Char) : Text.charOf? c.toNat = some c := by
  have hvalid : c.toNat.isValidChar := c.valid
  rw [Text.charOf?, if_pos hvalid, Char.ofNat_toNat]

/-- However a character is escaped, it is what the escape stands for. -/
theorem Spells.escaped {body text : List Char} (h : Spells body text) (c : Char) :
    Spells (escaped c ++ body) (c :: text) := by
  unfold Json.escaped
  split_ifs with hquote hslash hb hf hn hr ht hcontrol
  · exact .letter (by rw [hquote]; rfl) h
  · exact .letter (by rw [hslash]; rfl) h
  · exact .letter (by rw [hb]; rfl) h
  · exact .letter (by rw [hf]; rfl) h
  · exact .letter (by rw [hn]; rfl) h
  · exact .letter (by rw [hr]; rfl) h
  · exact .letter (by rw [ht]; rfl) h
  · have hlt : c.toNat < 32 := hcontrol
    exact .code (hexNumber?_hexDigits (by omega)) (charOf?_toNat c) h
  · exact .plain (Char.not_lt.mp hcontrol) hquote hslash h

theorem spells_escaped (text : List Char) : Spells (text.flatMap escaped) text := by
  induction text with
  | nil => exact .nil
  | cons c text ih => exact ih.escaped c

theorem isText_encode (options : Options) : IsText options (encode options) := by
  have hnone : AreSpaces [] := fun _ h => absurd h List.not_mem_nil
  refine ⟨[], (encode options).toList, [], by simp, hnone, hnone, ?_⟩
  obtain ⟨_ | size⟩ := options
  · exact .emptyObject hnone
  · have hsize : IsRootSize (some size) (encodeString size.toList) := by
      rw [← String.ofList_toList (s := size)]
      exact .string (by simpa using spells_escaped size.toList)
    have hkey : Spells (rootSizeKey.flatMap escaped) rootSizeKey := spells_escaped rootSizeKey
    simpa [encode, encodeString] using
      IsContainer.object hnone hnone hnone hnone hkey hsize

/-- Options are read back from what is written for them, whatever the root size: a text without
anything in it stays apart from none. The texts that are read as options are the texts of these
options in any form, and what is written for them instead is read as the same. -/
theorem decode?_encode (options : Options) :
    decode? (encode options) = some options ∧
      ∀ text, (decode? text = some options ↔ IsText options text) ∧
        (IsText options text → decode? (encode options) = decode? text) := by
  have hback : decode? (encode options) = some options :=
    decode?_eq_some_iff.mpr (isText_encode options)
  refine ⟨hback, fun text => ⟨decode?_eq_some_iff, fun h => ?_⟩⟩
  rw [hback, decode?_eq_some_iff.mpr h]

/-- An array with a surrogate pair and a slash that need not be escaped. -/
theorem decode?_encode_ofArray :
    IsText ⟨some "😀/"⟩ "\n[ \"\\ud83d\\uDE00\\/\" ]" ∧
      decode? (encode ⟨some "😀/"⟩) = decode? "\n[ \"\\ud83d\\uDE00\\/\" ]" := by
  have htext : IsText ⟨some "😀/"⟩ "\n[ \"\\ud83d\\uDE00\\/\" ]" :=
    decode?_eq_some_iff.mp (by decide +kernel)
  exact ⟨htext, ((decode?_encode _).2 _).2 htext⟩

end Typography.Options.Json
