import Mathlib.Data.List.TakeWhile
import Typography.Text.Blank
import Typography.Text.Line

/-!
# Trimmed texts

A text is trimmed if it neither starts nor ends with a blank. Trimming makes texts
trimmed, leaves trimmed texts as they are, and takes away blanks around them. The case of
letters has nothing to do with it.
-/

namespace Typography.Text

/-- A text that does not start or end with a blank. -/
def IsTrimmed (cs : List Char) : Prop :=
  (∀ c ∈ cs.head?, isBlank c = false) ∧ ∀ c ∈ cs.getLast?, isBlank c = false

instance (cs : List Char) : Decidable (IsTrimmed cs) :=
  have {o : Option Char} : Decidable (∀ c ∈ o, isBlank c = false) := Option.decidableForallMem o
  inferInstanceAs (Decidable (_ ∧ _))

theorem isBlank_of_isSpace {c : Char} (h : isSpace c) : isBlank c := by
  simp only [isSpace, isLineBreak, Bool.or_eq_true, beq_iff_eq] at h
  rcases h with (rfl | rfl) | (rfl | rfl) | rfl <;> rfl

theorem trimStart_append {s : List Char} (hs : ∀ c ∈ s, isBlank c) (cs : List Char) :
    trimStart (s ++ cs) = trimStart cs :=
  List.dropWhile_append_of_pos hs

theorem trimEnd_append {s : List Char} (hs : ∀ c ∈ s, isBlank c) (cs : List Char) :
    trimEnd (cs ++ s) = trimEnd cs := by
  unfold trimEnd
  rw [List.reverse_append, List.dropWhile_append_of_pos fun c hc => hs c (List.mem_reverse.mp hc)]

theorem trimStart_eq {cs : List Char} (h : ∀ c ∈ cs.head?, isBlank c = false) :
    trimStart cs = cs := by
  cases cs with
  | nil => rfl
  | cons c cs => rw [trimStart_cons, h c rfl]; rfl

theorem trimEnd_eq {cs : List Char} (h : ∀ c ∈ cs.getLast?, isBlank c = false) :
    trimEnd cs = cs := by
  have hreverse : trimStart cs.reverse = cs.reverse :=
    trimStart_eq fun c hc => h c (by rwa [List.head?_reverse] at hc)
  unfold trimStart at hreverse
  rw [trimEnd, hreverse, List.reverse_reverse]

theorem isBlank_of_mem_head?_trimStart (cs : List Char) :
    ∀ c ∈ (trimStart cs).head?, isBlank c = false := by
  intro c hc
  have := List.head?_dropWhile_not isBlank cs
  rw [trimStart] at hc
  rw [Option.mem_def.mp hc] at this
  exact this

theorem trimEnd_prefix (cs : List Char) : trimEnd cs <+: cs := by
  have := List.dropWhile_suffix isBlank (l := cs.reverse)
  rw [trimEnd, ← List.reverse_suffix, List.reverse_reverse]
  exact this

theorem trim_sublist (cs : List Char) : (trim cs).Sublist cs := by
  have hfront := trimEnd_prefix (trimStart cs)
  exact hfront.sublist.trans (List.dropWhile_sublist _)

/-- Trimming makes a text trimmed. -/
theorem isTrimmed_trim (cs : List Char) : IsTrimmed (trim cs) := by
  constructor
  · intro c hc
    obtain ⟨rest, hrest⟩ := trimEnd_prefix (trimStart cs)
    obtain ⟨others, hothers⟩ := List.head?_eq_some_iff.mp hc
    apply isBlank_of_mem_head?_trimStart cs c
    rw [trim] at hothers
    rw [← hrest, hothers]
    rfl
  · intro c hc
    rw [trim, trimEnd, List.getLast?_reverse] at hc
    exact isBlank_of_mem_head?_trimStart _ c hc

/-- Nothing but blanks is trimmed to nothing. -/
theorem trim_eq_nil_iff {cs : List Char} : trim cs = [] ↔ ∀ c ∈ cs, isBlank c := by
  constructor
  · intro h c hc
    have hstart : ∀ c ∈ trimStart cs, isBlank c := by
      rw [trim, trimEnd, List.reverse_eq_nil_iff, List.dropWhile_eq_nil_iff] at h
      exact fun c hc => h c (List.mem_reverse.mpr hc)
    have hnil : trimStart cs = [] := by
      cases hcs : trimStart cs with
      | nil => rfl
      | cons first others =>
        have hfirst := isBlank_of_mem_head?_trimStart cs first (by simp [hcs])
        simp [hstart first (by simp [hcs])] at hfirst
    exact List.dropWhile_eq_nil_iff.mp hnil c hc
  · intro h
    rw [trim, trimStart, List.dropWhile_eq_nil_iff.mpr h, trimEnd_nil]

theorem IsTrimmed.trim_eq {cs : List Char} (h : IsTrimmed cs) : trim cs = cs := by
  rw [trim, trimStart_eq h.1, trimEnd_eq h.2]

/-- The front of a trimmed text needs trimming at its end only. -/
theorem IsTrimmed.isTrimmed_trimEnd {front tail : List Char} (h : IsTrimmed (front ++ tail)) :
    IsTrimmed (trimEnd front) := by
  have hstart : trimStart front = front := by
    refine trimStart_eq fun c hc => h.1 c ?_
    rw [List.head?_append, Option.mem_def.mp hc, Option.some_or]
    rfl
  have htrim := isTrimmed_trim front
  rwa [trim, hstart] at htrim

/-- Blanks around a trimmed text are trimmed. -/
theorem IsTrimmed.trim_append {cs s s' : List Char} (h : IsTrimmed cs) (hs : ∀ c ∈ s, isBlank c)
    (hs' : ∀ c ∈ s', isBlank c) : trim (s ++ (cs ++ s')) = cs := by
  rw [trim, trimStart_append hs]
  cases cs with
  | nil =>
    have : trimStart s' = [] := by simpa using trimStart_append hs' []
    rw [List.nil_append, this]
    rfl
  | cons c cs =>
    rw [trimStart_eq (by simpa using h.1 c rfl), trimEnd_append hs', trimEnd_eq h.2]

theorem toLower_eq_self {c : Char} (h : ¬(65 ≤ c.toNat ∧ c.toNat ≤ 90)) : c.toLower = c :=
  dif_neg h

theorem toNat_toLower {c : Char} (h : 65 ≤ c.toNat ∧ c.toNat ≤ 90) :
    c.toLower.toNat = c.toNat + 32 := by
  have hval : c.val ≥ 'A'.val ∧ c.val ≤ 'Z'.val := h
  have heq : c.toLower.val = c.val + ('a'.val - 'A'.val) := congrArg Char.val (dif_pos hval)
  have hadd : (c.val + ('a'.val - 'A'.val)).toNat = (c.val.toNat + 32) % 2 ^ 32 :=
    UInt32.toNat_add _ _
  have hle : c.val.toNat ≤ 90 := h.2
  exact (congrArg UInt32.toNat heq).trans (hadd.trans (Nat.mod_eq_of_lt (by omega)))

theorem toNat_toUpper {c : Char} (h : 97 ≤ c.toNat ∧ c.toNat ≤ 122) :
    c.toUpper.toNat + 32 = c.toNat := by
  have hval : 'a'.val ≤ c.val ∧ c.val ≤ 'z'.val := h
  have heq : c.toUpper.val = c.val + ('A'.val - 'a'.val) := by
    delta Char.toUpper
    rw [dif_pos hval]
  have hdiff : ('A'.val - 'a'.val).toNat = 2 ^ 32 - 32 := rfl
  have hadd : c.toUpper.val.toNat = (c.val.toNat + (2 ^ 32 - 32)) % 2 ^ 32 := by
    rw [heq, UInt32.toNat_add, hdiff]
  have hbounds : 97 ≤ c.val.toNat ∧ c.val.toNat ≤ 122 := h
  change c.toUpper.val.toNat + 32 = c.val.toNat
  omega

/-- Lower case is what a letter of ASCII has, and any other character stays. -/
theorem toLower_cases (c : Char) :
    c.toLower = c ∨ (65 ≤ c.toNat ∧ c.toNat ≤ 90) ∧ c.toLower.toNat = c.toNat + 32 := by
  by_cases hupper : 65 ≤ c.toNat ∧ c.toNat ≤ 90
  · exact .inr ⟨hupper, toNat_toLower hupper⟩
  · exact .inl (toLower_eq_self hupper)

/-- The characters whose lower case is a given letter are the letter and its upper case. -/
theorem toLower_eq_iff {c letter : Char} (hlower : letter.toLower = letter)
    (hupper : letter.toUpper.toLower = letter) :
    c.toLower = letter ↔ c = letter ∨ c = letter.toUpper := by
  constructor
  · rintro rfl
    rcases toLower_cases c with h | ⟨hc, h⟩
    · exact .inl h.symm
    · refine .inr (Char.toNat_inj.mp ?_)
      have := toNat_toUpper (c := c.toLower) (by omega)
      omega
  · rintro (rfl | rfl)
    · exact hlower
    · exact hupper

/-- The printable characters of ASCII but the space are no blanks. -/
theorem isBlank_of_toNat {c : Char} (h : 33 ≤ c.toNat ∧ c.toNat ≤ 126) : isBlank c = false := by
  have hle : ∀ c d : Char, c ≤ d ↔ c.toNat ≤ d.toNat := fun _ _ => Iff.rfl
  unfold isBlank
  simp only [← Bool.not_eq_true, Bool.or_eq_true, Bool.and_eq_true, decide_eq_true_eq,
    beq_iff_eq, hle, ← Char.toNat_inj, Char.reduceToNat]
  omega

theorem isBlank_toLower (c : Char) : isBlank c.toLower = isBlank c := by
  rcases toLower_cases c with h | ⟨hupper, hlower⟩
  · rw [h]
  · rw [isBlank_of_toNat (by omega), isBlank_of_toNat (by omega)]

theorem isTrimmed_map_toLower {cs : List Char} :
    IsTrimmed (cs.map Char.toLower) ↔ IsTrimmed cs := by
  simp [IsTrimmed, List.head?_map, List.getLast?_map, isBlank_toLower]

/-- Blanks around an end of a text and a trimmed text behind it. -/
theorem IsTrimmed.trim_append_right {cs s : List Char} (h : IsTrimmed cs) (hne : cs ≠ [])
    (hs : ∀ c ∈ s, isBlank c) (u : List Char) : trim (u ++ (cs ++ s)) = trimStart u ++ cs := by
  have hsplit : u.takeWhile isBlank ++ trimStart u = u := List.takeWhile_append_dropWhile
  have htrimmed : IsTrimmed (trimStart u ++ cs) := by
    constructor
    · rw [List.head?_append]
      cases hu : (trimStart u).head? with
      | none => exact h.1
      | some c => exact fun c' hc' => isBlank_of_mem_head?_trimStart u c' (hu.trans hc')
    · rw [List.getLast?_append, List.getLast?_eq_some_getLast hne, Option.some_or,
        ← List.getLast?_eq_some_getLast hne]
      exact h.2
  have htrim := htrimmed.trim_append
    (fun c hc => List.all_eq_true.mp (List.all_takeWhile (l := u)) c hc) hs
  rwa [List.append_assoc (trimStart u), ← List.append_assoc (u.takeWhile isBlank), hsplit] at htrim

end Typography.Text
