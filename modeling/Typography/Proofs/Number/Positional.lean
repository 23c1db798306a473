import Mathlib.Data.Nat.Digits.Defs
import Typography.Number.Decimal

/-!
# How a number is written

A finite number is written with digits, a point with digits behind it for a fraction, and a
minus in front of a number that is not zero, `Decimal.isSigned_formatNumber`. No exponent is
written, and no sign of zero: the shortest decimal of a number that is not zero has a digit that
is not zero, as no interval of doubles goes down to zero.
-/

namespace Typography

namespace Interval

theorem low_onGrid (i : Interval) (exponent : Int) :
    (i.onGrid exponent).low = i.low * 10 ^ (-exponent).toNat := rfl

/-- Only whole numbers above zero lie in an interval above zero. -/
theorem pos_of_holds {i : Interval} (hlow : 0 < i.low) {n : Nat} (h : i.holds n) : 0 < n := by
  rcases Nat.eq_zero_or_pos n with rfl | hn
  · rw [holds, Nat.zero_mul] at h
    simp [Nat.not_le_of_lt hlow, Nat.not_lt_of_lt hlow] at h
  · exact hn

theorem pos_of_nearest? {i : Interval} (hlow : 0 < i.low) {n : Nat} (h : i.nearest? = some n) :
    0 < n := by
  unfold nearest? at h
  simp only at h
  split at h
  · rename_i hn hsucc
    obtain rfl := Option.some.inj h
    split
    · exact pos_of_holds hlow hn
    · exact Nat.succ_pos _
  · rename_i hn _
    obtain rfl := Option.some.inj h
    exact pos_of_holds hlow hn
  · obtain rfl := Option.some.inj h
    exact Nat.succ_pos _
  · cases h

/-- The decimal that is found is not zero if its finest grid has points up to the middle. -/
theorem coefficient_search_pos {i : Interval} (hlow : 0 < i.low) :
    ∀ (steps : Nat) (exponent : Int),
      (i.onGrid (exponent - steps)).unit ≤ (i.onGrid (exponent - steps)).middle →
      0 < (i.onGrid (exponent - steps)).unit → 0 < (i.search steps exponent).coefficient
  | 0, exponent, hmiddle, hunit => by
    rw [Int.natCast_zero, Int.sub_zero] at hmiddle hunit
    exact Nat.div_pos hmiddle hunit
  | steps + 1, exponent, hmiddle, hunit => by
    rw [search]
    split
    · rename_i n hn
      refine pos_of_nearest? ?_ hn
      rw [low_onGrid]
      exact Nat.mul_pos hlow (Nat.pow_pos (by decide))
    · have heq : exponent - 1 - (steps : Int) = exponent - ((steps + 1 : Nat) : Int) := by omega
      exact coefficient_search_pos hlow steps (exponent - 1) (heq ▸ hmiddle) (heq ▸ hunit)

/-- No interval of doubles goes down to zero. -/
theorem low_ofDouble_pos {m : Nat} (hm : 0 < m) (e : Int) : 0 < (ofDouble m e).low := by
  have hpow : 0 < 2 ^ (e - 2).toNat := Nat.pow_pos (by decide)
  change 0 < (4 * m - if m = Nat.pow 2 52 ∧ -1074 < e then 1 else 2) * 2 ^ (e - 2).toNat
  refine Nat.mul_pos ?_ hpow
  split <;> omega

/-- A double is a point of its finest grid, and not the one at zero. -/
theorem unit_onGrid_le_middle {m : Nat} (hm : 0 < m) (e : Int) :
    ((ofDouble m e).onGrid (min e 0)).unit ≤ ((ofDouble m e).onGrid (min e 0)).middle := by
  change 2 ^ (2 - e).toNat * 10 ^ (min e 0).toNat ≤
    4 * m * 2 ^ (e - 2).toNat * 10 ^ (-min e 0).toNat
  rw [show (min e 0).toNat = 0 by omega, Nat.pow_zero, Nat.mul_one]
  have hscale : 4 * m ≤ 4 * m * 2 ^ (e - 2).toNat :=
    Nat.le_mul_of_pos_right _ (Nat.pow_pos (by decide))
  by_cases he : 0 ≤ e
  · rw [show (-min e 0).toNat = 0 by omega, Nat.pow_zero, Nat.mul_one]
    have hunit : 2 ^ (2 - e).toNat ≤ 2 ^ 2 := Nat.pow_le_pow_right (by decide) (by omega)
    omega
  · rw [show (2 - e).toNat = 2 + (-min e 0).toNat by omega, Nat.pow_add]
    have hten : 2 ^ (-min e 0).toNat ≤ 10 ^ (-min e 0).toNat := Nat.pow_le_pow_left (by decide) _
    exact Nat.mul_le_mul (by omega) hten

theorem unit_onGrid_pos (m : Nat) (e exponent : Int) :
    0 < ((ofDouble m e).onGrid exponent).unit :=
  Nat.mul_pos (Nat.pow_pos (by decide)) (Nat.pow_pos (by decide))

end Interval

namespace Decimal

/-- Digits, and a point with digits behind it for a fraction. -/
inductive IsPlain : List Char → Prop
  | whole {digits : List Char} : digits ≠ [] → (∀ c ∈ digits, c.isDigit) → IsPlain digits
  | pointed {digits fraction : List Char} :
    digits ≠ [] → fraction ≠ [] → (∀ c ∈ digits ++ fraction, c.isDigit) →
      IsPlain (digits ++ '.' :: fraction)

theorem IsPlain.isDigit_or_eq {text : List Char} (h : IsPlain text) {c : Char} (hc : c ∈ text) :
    c.isDigit ∨ c = '.' := by
  cases h with
  | whole _ hdigits => exact .inl (hdigits c hc)
  | pointed _ _ hdigits =>
    rcases List.mem_append.mp hc with hc | hc
    · exact .inl (hdigits c (List.mem_append_left _ hc))
    · rcases List.mem_cons.mp hc with rfl | hc
      · exact .inr rfl
      · exact .inl (hdigits c (List.mem_append_right _ hc))

/-- A decimal with a minus in front of it if it is below zero. Zero has no sign. -/
inductive IsSigned : List Char → Prop
  | unsigned {text : List Char} : IsPlain text → IsSigned text
  | negative {text : List Char} :
    IsPlain text → (∃ c ∈ text, c.isDigit ∧ c ≠ '0') → IsSigned ('-' :: text)

theorem coefficient_shortest_pos {m : Nat} (hm : 0 < m) (e : Int) :
    0 < (shortest m e).coefficient := by
  generalize hcoarsest :
    (digitsOf ((Interval.ofDouble m e).middle / (Interval.ofDouble m e).unit)).length = coarsest
  have hfinest : (coarsest : Int) - ((coarsest - min e 0).toNat : Nat) = min e 0 := by omega
  rw [shortest, hcoarsest]
  refine Interval.coefficient_search_pos (Interval.low_ofDouble_pos hm e) _ _ ?_ ?_
  · rw [hfinest]
    exact Interval.unit_onGrid_le_middle hm e
  · exact Interval.unit_onGrid_pos m e _

theorem isDigit_of_mem_digitsOf {n : Nat} : ∀ c ∈ digitsOf n, c.isDigit :=
  fun _ hc => Nat.isDigit_of_mem_toDigits (by decide) (by decide) hc

/-- The digits of a number that is not zero are not all zero. -/
theorem exists_mem_digitsOf {n : Nat} (hn : 0 < n) : ∃ c ∈ digitsOf n, c.isDigit ∧ c ≠ '0' := by
  by_contra hzero
  have hzeros : ∀ c ∈ digitsOf n, c = '0' := by
    intro c hc
    by_contra hne
    exact hzero ⟨c, hc, isDigit_of_mem_digitsOf c hc, hne⟩
  have hvalue : Nat.ofDigitChars 10 (digitsOf n) 0 = n :=
    Nat.ofDigitChars_toDigits (by decide) (by decide)
  rw [List.eq_replicate_of_mem hzeros, Nat.ofDigitChars_replicate_zero, Nat.mul_zero] at hvalue
  omega

theorem digitsOf_ne_nil (n : Nat) : digitsOf n ≠ [] :=
  Nat.toDigits_ne_nil

/-- A decimal is written with its digits, zeros and perhaps a point. -/
theorem mem_positional_of_mem_digitsOf {d : Decimal} {c : Char}
    (hc : c ∈ digitsOf d.coefficient) : c ∈ d.positional := by
  unfold positional
  simp only
  split
  · exact List.mem_append_left _ hc
  · split
    · rw [← List.take_append_drop ((digitsOf d.coefficient).length - (-d.exponent).toNat)
        (digitsOf d.coefficient), List.mem_append] at hc
      rcases hc with hc | hc
      · exact List.mem_append_left _ hc
      · exact List.mem_append_right _ (List.mem_cons_of_mem _ hc)
    · exact List.mem_cons_of_mem _ (List.mem_cons_of_mem _ (List.mem_append_right _ hc))

theorem isPlain_positional (d : Decimal) : IsPlain d.positional := by
  have hdigits := isDigit_of_mem_digitsOf (n := d.coefficient)
  have hne := digitsOf_ne_nil d.coefficient
  have hzeros : ∀ n, ∀ c ∈ List.replicate n '0', c.isDigit := by
    intro n c hc
    rw [List.eq_of_mem_replicate hc]
    rfl
  unfold positional
  simp only
  generalize digitsOf d.coefficient = digits at hdigits hne ⊢
  split
  · refine .whole (List.append_ne_nil_of_left_ne_nil hne _) fun c hc => ?_
    rcases List.mem_append.mp hc with hc | hc
    · exact hdigits c hc
    · exact hzeros _ c hc
  · rename_i hplaces
    split
    · rename_i hlt
      refine .pointed ?_ ?_ fun c hc => ?_
      · rw [ne_eq, List.take_eq_nil_iff, not_or]
        exact ⟨by omega, hne⟩
      · rw [ne_eq, List.drop_eq_nil_iff]
        omega
      · rw [List.take_append_drop] at hc
        exact hdigits c hc
    · refine .pointed (List.cons_ne_nil '0' []) (List.append_ne_nil_of_right_ne_nil _ hne)
        fun c hc => ?_
      rcases List.mem_append.mp hc with hc | hc
      · rw [List.mem_singleton.mp hc]
        rfl
      · rcases List.mem_append.mp hc with hc | hc
        · exact hzeros _ c hc
        · exact hdigits c hc

/-- A finite number is written as a decimal. -/
theorem isSigned_formatNumber {x : Float} (h : x.isFinite) :
    IsSigned (formatNumber x).toList := by
  have hfinite : x.toModel.unpack.isFinite := h
  unfold formatNumber
  split
  · rename_i hx
    rw [hx] at hfinite
    cases hfinite
  · rename_i hx
    rw [hx] at hfinite
    cases hfinite
  · exact .unsigned (.whole (List.cons_ne_nil '0' []) (List.all_eq_true.mp rfl))
  · rename_i sign m e hm _
    obtain ⟨c, hc, hdigit⟩ := exists_mem_digitsOf (coefficient_shortest_pos hm e)
    cases sign with
    | positive =>
      change IsSigned (String.ofList _).toList
      rw [String.toList_ofList]
      exact .unsigned (isPlain_positional _)
    | negative =>
      change IsSigned ("-" ++ String.ofList _).toList
      rw [String.toList_append, String.toList_ofList, String.toList_ofList]
      exact .negative (isPlain_positional _) ⟨c, mem_positional_of_mem_digitsOf hc, hdigit⟩

end Decimal

end Typography
