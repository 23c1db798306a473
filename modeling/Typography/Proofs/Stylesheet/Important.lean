import Mathlib.Logic.Function.Iterate
import Typography.Proofs.Stylesheet.Declaration
import Typography.Proofs.Stylesheet.Written
import Typography.Proofs.Text.Bytes

/-!
# The flag of a declaration

A value is split into what stands before its flag and whether the flag is there. The flag
has as many bytes as characters, so the split can be found by counting either: an offset in
bytes with nothing but the flag behind it never falls inside a character,
`splitImportantInBytes?_eq`.

What comes out is a normal form: the value is trimmed, and has no flag at its end unless one
was cut off. These are the pairs that are found again in what is written of them,
`splitImportant_writtenValue_iff`, so the value and the flag of a declaration survive writing
and reading however often it is done, `isFlagSplit_splitImportant`.
-/

namespace Typography

open Text

/-- The flag in letters of either case. -/
def IsSpelling (flag : List Char) : Prop :=
  List.Forall₂ (fun c letter => c = letter ∨ c = letter.toUpper) flag importantFlag

/-- A value that ends with the flag, but for blanks, and the text before the flag. -/
def EndsWithFlag (value front : List Char) : Prop :=
  ∃ flag, IsSpelling flag ∧ trim value = front ++ flag

/-- Cuts the flag off a value at an offset in bytes. There is no answer if a text would be cut
inside a character. -/
def splitImportantInBytes? (value : List Char) : Option (List Char × Bool) :=
  let trimmed := trim value
  let offset := (bytes trimmed).length - (bytes importantFlag).length
  if (bytes importantFlag).length ≤ (bytes trimmed).length ∧ IsBoundary trimmed offset then
    (cutAtByte? trimmed offset).bind fun (_, tail) =>
      if (bytes tail).map lowerByte = (bytes importantFlag).map lowerByte then
        (cutAtByte? trimmed offset).map fun (front, _) => (trimEnd front, true)
      else some (trimmed, false)
  else some (trimmed, false)

/-- A value as it is written, with its flag behind it. -/
def writtenValue (split : List Char × Bool) : List Char :=
  split.1 ++ Mark.flag split.2

/-- Writes a node as a statement inside `depth` blocks and reads it as a declaration. -/
def reread (depth : Nat) (span : Option Span) (children : List Tree) (kind : NodeKind) :
    Except SkipReason NodeKind :=
  readDeclaration (Layout.statement depth (.node kind span children)).toList

/-- A value beside its flag, as splitting leaves them: the value is trimmed, and it has a flag
at its end at most if the flag is set. -/
structure IsNormal (split : List Char × Bool) : Prop where
  isTrimmed : IsTrimmed split.1
  not_suffix : split.2 = false → ¬importantFlag <:+ split.1.map Char.toLower

theorem toLower_of_mem_importantFlag :
    ∀ letter ∈ importantFlag, letter.toLower = letter ∧ letter.toUpper.toLower = letter := by
  rw [Mark.importantFlag_eq]
  simp

theorem map_toLower_importantFlag : importantFlag.map Char.toLower = importantFlag := by
  rw [Mark.importantFlag_eq]
  decide

/-- A text in lower case, letter by letter. -/
theorem map_toLower_eq_iff {cs letters : List Char}
    (h : ∀ letter ∈ letters, letter.toLower = letter ∧ letter.toUpper.toLower = letter) :
    cs.map Char.toLower = letters ↔
      List.Forall₂ (fun c letter => c = letter ∨ c = letter.toUpper) cs letters := by
  induction letters generalizing cs with
  | nil => simp
  | cons letter letters ih =>
    obtain ⟨hlower, hupper⟩ := h letter List.mem_cons_self
    cases cs with
    | nil => simp
    | cons c cs =>
      rw [List.map_cons, List.cons.injEq, List.forall₂_cons, toLower_eq_iff hlower hupper,
        ih fun letter hletter => h letter (List.mem_cons_of_mem _ hletter)]

theorem isSpelling_iff {flag : List Char} :
    IsSpelling flag ↔ flag.map Char.toLower = importantFlag :=
  (map_toLower_eq_iff toLower_of_mem_importantFlag).symm

theorem exists_endsWithFlag_iff {value : List Char} :
    (∃ front, EndsWithFlag value front) ↔ importantFlag <:+ (trim value).map Char.toLower := by
  constructor
  · rintro ⟨front, flag, hflag, htrim⟩
    refine ⟨front.map Char.toLower, ?_⟩
    rw [htrim, List.map_append, isSpelling_iff.mp hflag]
  · rintro ⟨before, hbefore⟩
    obtain ⟨front, flag, htrim, -, hflag⟩ := List.map_eq_append_iff.mp hbefore.symm
    exact ⟨front, flag, isSpelling_iff.mpr hflag, htrim⟩

theorem splitImportant_of_endsWithFlag {value front : List Char} (h : EndsWithFlag value front) :
    splitImportant value = (trimEnd front, true) := by
  obtain ⟨flag, hflag, htrim⟩ := h
  exact splitImportant_of_trim_eq htrim (isSpelling_iff.mp hflag)

theorem splitImportant_of_not_endsWithFlag {value : List Char}
    (h : ¬∃ front, EndsWithFlag value front) : splitImportant value = (trim value, false) :=
  splitImportant_of_not_suffix (mt exists_endsWithFlag_iff.mpr h)

/-- A flag is cut off exactly if the value ends with one. -/
theorem splitImportant_eq_iff {value w : List Char} :
    splitImportant value = (w, true) ↔ ∃ front, EndsWithFlag value front ∧ w = trimEnd front := by
  constructor
  · intro h
    by_cases hflag : ∃ front, EndsWithFlag value front
    · obtain ⟨front, hfront⟩ := hflag
      rw [splitImportant_of_endsWithFlag hfront] at h
      exact ⟨front, hfront, (congrArg Prod.fst h).symm⟩
    · rw [splitImportant_of_not_endsWithFlag hflag] at h
      cases h
  · rintro ⟨front, hfront, rfl⟩
    exact splitImportant_of_endsWithFlag hfront

/-- Of two flags the first one stays with the value. -/
example : splitImportant " é !important!IMPORTANT ".toList = ("é !important".toList, true) := by
  decide +kernel

/-- The flag takes its bytes off the end of a value. -/
theorem EndsWithFlag.cutAtByte?_eq {value front : List Char} (h : EndsWithFlag value front) :
    (bytes importantFlag).length ≤ (bytes (trim value)).length ∧
      ∃ flag, (bytes flag).map lowerByte = bytes importantFlag ∧
        cutAtByte? (trim value) ((bytes (trim value)).length - (bytes importantFlag).length) =
          some (front, flag) := by
  obtain ⟨flag, hflag, htrim⟩ := h
  have hbytes : (bytes flag).map lowerByte = bytes importantFlag := by
    rw [← bytes_map_toLower, isSpelling_iff.mp hflag]
  have hlength : (bytes (trim value)).length =
      (bytes front).length + (bytes importantFlag).length := by
    rw [htrim, bytes_append, List.length_append, ← hbytes, List.length_map]
  exact ⟨by omega, flag, hbytes, cutAtByte?_eq_some_iff.mpr ⟨htrim, by omega⟩⟩

/-- The flag is found by counting bytes as well. -/
theorem splitImportantInBytes?_eq (value : List Char) :
    splitImportantInBytes? value = some (splitImportant value) := by
  have hlower : (bytes importantFlag).map lowerByte = bytes importantFlag := by
    rw [← bytes_map_toLower, map_toLower_importantFlag]
  unfold splitImportantInBytes?
  rw [hlower]
  dsimp only
  by_cases h : ∃ front, EndsWithFlag value front
  · obtain ⟨front, hfront⟩ := h
    obtain ⟨hle, flag, hbytes, hcut⟩ := hfront.cutAtByte?_eq
    have hboundary := isSome_cutAtByte?_iff.mp (Option.isSome_of_eq_some hcut)
    rw [splitImportant_of_endsWithFlag hfront, if_pos ⟨hle, hboundary⟩, hcut, Option.bind_some,
      if_pos hbytes, Option.map_some]
  · rw [splitImportant_of_not_endsWithFlag h]
    split
    · rename_i hguard
      obtain ⟨⟨front, tail⟩, hcut⟩ :=
        Option.isSome_iff_exists.mp (isSome_cutAtByte?_iff.mpr hguard.2)
      rw [hcut, Option.bind_some, if_neg]
      -- bytes in lower case tell the letters, so the flag would stand there
      intro hbytes
      rw [← bytes_map_toLower, bytes_inj, ← isSpelling_iff] at hbytes
      exact h ⟨front, tail, hbytes, (cutAtByte?_eq_some_iff.mp hcut).1⟩
    · rfl

theorem isNormal_splitImportant (value : List Char) : IsNormal (splitImportant value) := by
  by_cases h : ∃ front, EndsWithFlag value front
  · obtain ⟨front, hfront⟩ := h
    rw [splitImportant_of_endsWithFlag hfront]
    obtain ⟨flag, -, htrim⟩ := hfront
    have htrimmed := isTrimmed_trim value
    rw [htrim] at htrimmed
    exact ⟨htrimmed.isTrimmed_trimEnd, nofun⟩
  · rw [splitImportant_of_not_endsWithFlag h]
    exact ⟨isTrimmed_trim value, fun _ => mt exists_endsWithFlag_iff.mpr h⟩

/-- A normal form is found in what is written of it, whatever blanks stand around. -/
theorem IsNormal.splitImportant_eq {split : List Char × Bool} (h : IsNormal split)
    {s s' : List Char} (hs : ∀ c ∈ s, isBlank c) (hs' : ∀ c ∈ s', isBlank c) :
    splitImportant (s ++ (writtenValue split ++ s')) = split := by
  obtain ⟨w, important⟩ := split
  obtain ⟨htrimmed, hsuffix⟩ := h
  cases important with
  | false =>
    have htrim : trim (s ++ (writtenValue (w, false) ++ s')) = w := by
      rw [writtenValue, Mark.flag, if_neg Bool.false_ne_true, List.append_nil]
      exact htrimmed.trim_append hs hs'
    have hflag := splitImportant_of_not_suffix (htrim.symm ▸ hsuffix rfl)
    rwa [htrim] at hflag
  | true =>
    have htrim : trim (s ++ (w ++ [' '])) = w := htrimmed.trim_append hs (List.all_eq_true.mp rfl)
    have hflag := splitImportant_append map_toLower_importantFlag hs' (s ++ (w ++ [' ']))
    rw [htrim] at hflag
    simpa [writtenValue, Mark.flag_true] using hflag

/-- The normal forms are the pairs that are found again in what is written of them. -/
theorem splitImportant_writtenValue_iff {split : List Char × Bool} :
    splitImportant (writtenValue split) = split ↔ IsNormal split := by
  constructor
  · intro h
    rw [← h]
    exact isNormal_splitImportant _
  · intro h
    have hsplit := h.splitImportant_eq (List.forall_mem_nil _) (List.forall_mem_nil _)
    rwa [List.nil_append, List.append_nil] at hsplit

/-- A declaration with a normal form is what the text of its mark says, with blanks behind or
none. -/
theorem Mark.readDeclaration_of_isNormal {property value : String} {important : Bool}
    {g : List Char} (hproperty : IsTrimmed property.toList) (hne : property ≠ "")
    (hcolon : ':' ∉ property.toList) (hvalue : IsNormal (value.toList, important))
    (hg : ∀ c ∈ g, isBlank c) :
    readDeclaration ((leaf (.declaration property value important)).text ++ g) =
      .ok (.declaration property value important) := by
  have hempty : property.toList.isEmpty = false := by
    rw [← Bool.not_eq_true, List.isEmpty_iff]
    intro hnil
    exact hne (String.toList_inj.mp hnil)
  have hspace : ∀ c ∈ [' '], isBlank c := List.all_eq_true.mp rfl
  have hsplit := hvalue.splitImportant_eq hspace hg
  rw [writtenValue, List.singleton_append, List.append_assoc] at hsplit
  rw [text_declaration_append, readDeclaration_append hcolon, hproperty.trim_eq, hempty, hsplit,
    String.ofList_toList, String.ofList_toList]
  rfl

/-- A declaration that was read is written and read again as it is. -/
theorem reread_eq {text : List Char} {kind : NodeKind} (h : readDeclaration text = .ok kind)
    (depth : Nat) (span : Option Span) (children : List Tree) :
    reread depth span children kind = .ok kind := by
  obtain ⟨property, value, hcolon, hne, -, rfl⟩ := exists_of_readDeclaration h
  have htrimmed : IsTrimmed (String.ofList (trim property)).toList := by
    rw [String.toList_ofList]
    exact isTrimmed_trim property
  have hcolon' : ':' ∉ (String.ofList (trim property)).toList := by
    rw [String.toList_ofList]
    exact fun hmem => hcolon ((trim_sublist property).subset hmem)
  have hvalue : IsNormal
      ((String.ofList (splitImportant value).1).toList, (splitImportant value).2) := by
    rw [String.toList_ofList]
    exact isNormal_splitImportant value
  rw [reread, Layout.toList_statement_of_not_hasBlock (by simp) rfl, ← List.append_nil (Mark.text _)]
  exact Mark.readDeclaration_of_isNormal htrimmed (by simpa using hne) hcolon' hvalue
    (List.forall_mem_nil _)

/-- What was read of a text is read again once it is written, be it a declaration or none. -/
theorem readDeclaration_bind_reread (text : List Char) (depth : Nat) (span : Option Span)
    (children : List Tree) :
    (readDeclaration text >>= reread depth span children) = readDeclaration text := by
  cases h : readDeclaration text with
  | error reason => rfl
  | ok kind => simp only [bind, Except.bind, reread_eq h]

/-- What the split of a value comes to. -/
structure IsFlagSplit (value : List Char) (split : List Char × Bool) : Prop where
  /-- The split is found by counting bytes, and no text is cut inside a character. -/
  inBytes : splitImportantInBytes? value = some split
  /-- The flag is set exactly if the value ends with it, and what stands before it is kept. -/
  flagged_iff : ∀ w, split = (w, true) ↔ ∃ front, EndsWithFlag value front ∧ w = trimEnd front
  /-- Otherwise the value is trimmed. -/
  unflagged : (¬∃ front, EndsWithFlag value front) → split = (trim value, false)
  /-- Any number of rounds of writing and splitting changes nothing. -/
  rounds : ∀ n, (fun split => splitImportant (writtenValue split))^[n] split = split
  /-- A declaration of the value has this split as value and flag, and keeps them however often
  it is written and read again. -/
  declaration : ∀ property, ':' ∉ property → trim property ≠ [] →
    let kind := .declaration (String.ofList (trim property)) (String.ofList split.1) split.2
    readDeclaration (property ++ ':' :: value) = .ok kind ∧
      ∀ depth span children n, (· >>= reread depth span children)^[n] (.ok kind) = .ok kind

/-- Splitting a value gives a normal form of it. -/
theorem isFlagSplit_splitImportant (value : List Char) :
    IsFlagSplit value (splitImportant value) := by
  constructor
  case inBytes => exact splitImportantInBytes?_eq value
  case flagged_iff => exact fun w => splitImportant_eq_iff
  case unflagged => exact splitImportant_of_not_endsWithFlag
  case rounds =>
    exact Function.iterate_fixed
      (splitImportant_writtenValue_iff.mpr (isNormal_splitImportant value))
  case declaration =>
    intro property hcolon hproperty kind
    have hread : readDeclaration (property ++ ':' :: value) = .ok kind := by
      rw [readDeclaration_append hcolon, if_neg (by simpa using hproperty)]
    refine ⟨hread, fun depth span children => ?_⟩
    rw [← hread]
    exact Function.iterate_fixed (readDeclaration_bind_reread _ depth span children)

end Typography
