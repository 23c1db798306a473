import Mathlib.Data.List.Basic
import Mathlib.Data.List.DropRight
import Mathlib.Data.Prod.Lex
import Typography.Source.Position

/-!
# The order of positions

Positions are ordered by their lines and then by their columns, so that a position is less
than every position behind it. The position behind two stretches of text is reached from the
position behind the first one, `Position.after_append`, unless the cut between the two goes
through a line break.
-/

namespace Typography

namespace Text

/-- The cut between two stretches of text goes through a carriage return and its line
feed. -/
def Severs (front behind : List Char) : Prop :=
  front.getLast? = some '\r' ∧ behind.head? = some '\n'

variable {front middle behind : List Char}

theorem not_severs_nil (behind : List Char) : ¬ Severs [] behind := by
  rintro ⟨hlast, -⟩
  cases hlast

theorem not_severs_of_head? (h : behind.head? ≠ some '\n') (front : List Char) :
    ¬ Severs front behind :=
  fun hsevers => h hsevers.2

theorem severs_append_left (h : middle ≠ []) :
    Severs (front ++ middle) behind ↔ Severs middle behind := by
  rw [Severs, Severs, List.getLast?_append_of_ne_nil _ h]

theorem severs_append_right (h : middle ≠ []) :
    Severs front (middle ++ behind) ↔ Severs front middle := by
  obtain ⟨c, cs, rfl⟩ := List.exists_cons_of_ne_nil h
  rfl

/-- Whether a cut goes through a line break is seen by the character before it. -/
theorem not_severs_cons_append {c : Char} {cs : List Char} (hone : ¬ Severs [c] cs)
    (h : ¬ Severs (c :: cs) behind) : ¬ Severs [c] (cs ++ behind) := by
  cases cs with
  | nil => exact h
  | cons b cs => rwa [severs_append_right (List.cons_ne_nil b cs)]

theorem not_severs_of_cons {c : Char} {cs : List Char} (h : ¬ Severs (c :: cs) behind) :
    ¬ Severs cs behind := by
  cases cs with
  | nil => exact not_severs_nil behind
  | cons b cs => rwa [← List.singleton_append, severs_append_left (List.cons_ne_nil b cs)] at h

end Text

namespace Position

/-- Line and column, in the lexicographic order. -/
def key (p : Position) : ℕ ×ₗ ℕ := toLex (p.line, p.column)

theorem key_injective : Function.Injective key := by
  rintro ⟨line, column⟩ ⟨line', column'⟩ h
  obtain ⟨rfl, rfl⟩ := Prod.mk.inj (toLex_inj.mp h)
  rfl

instance : LinearOrder Position := LinearOrder.lift' key key_injective

theorem lt_iff {p q : Position} :
    p < q ↔ p.line < q.line ∨ p.line = q.line ∧ p.column < q.column :=
  Prod.Lex.toLex_lt_toLex

theorem lt_nextLine (p : Position) : p < p.nextLine :=
  lt_iff.mpr (.inl (Nat.lt_succ_self _))

theorem lt_add_unitsOf (p : Position) (c : Char) : p < ⟨p.line, p.column + unitsOf c⟩ := by
  have hpos : 0 < unitsOf c := by
    unfold unitsOf
    split <;> decide
  exact lt_iff.mpr (.inr ⟨rfl, Nat.lt_add_of_pos_right hpos⟩)

theorem not_severs_singleton {c : Char} {cs : List Char}
    (h : ∀ rest, c = '\r' → cs = '\n' :: rest → False) : ¬ Text.Severs [c] cs := by
  rintro ⟨hlast, hhead⟩
  obtain ⟨rest, rfl⟩ := List.head?_eq_some_iff.mp hhead
  exact h rest (Option.some.inj hlast) rfl

/-- One character is passed at a time, unless it is a carriage return with its line feed. -/
theorem after_cons {c : Char} {cs : List Char} (h : ¬ Text.Severs [c] cs) (p : Position) :
    p.after (c :: cs) =
      after (if Text.isLineBreak c then p.nextLine else ⟨p.line, p.column + unitsOf c⟩) cs := by
  rw [after]
  · split <;> rfl
  · rintro rest rfl rfl
    exact h ⟨rfl, rfl⟩

theorem le_after (p : Position) (cs : List Char) : p ≤ p.after cs := by
  fun_induction after p cs with
  | case1 => exact le_rfl
  | case2 p cs ih => exact p.lt_nextLine.le.trans ih
  | case3 p c cs _ hbreak ih => exact p.lt_nextLine.le.trans ih
  | case4 p c cs _ hbreak ih => exact (p.lt_add_unitsOf c).le.trans ih

/-- Every character moves the position on. -/
theorem lt_after (p : Position) {cs : List Char} (h : cs ≠ []) : p < p.after cs := by
  fun_cases after p cs with
  | case1 => exact absurd rfl h
  | case2 cs => exact p.lt_nextLine.trans_le (le_after _ cs)
  | case3 c cs _ hbreak => exact p.lt_nextLine.trans_le (le_after _ cs)
  | case4 c cs _ hbreak => exact (p.lt_add_unitsOf c).trans_le (le_after _ cs)

/-- Positions add up over a cut that leaves the line breaks whole. -/
theorem after_append (p : Position) {front behind : List Char} (h : ¬ Text.Severs front behind) :
    p.after (front ++ behind) = (p.after front).after behind := by
  fun_induction after p front with
  | case1 p => rfl
  | case2 p cs ih =>
    -- a carriage return with its line feed is passed in one step, so two characters go
    exact ih (Text.not_severs_of_cons (Text.not_severs_of_cons h))
  | case3 p c cs hcrlf hbreak ih =>
    have hone : ¬ Text.Severs [c] (cs ++ behind) :=
      Text.not_severs_cons_append (not_severs_singleton hcrlf) h
    rw [List.cons_append, after_cons hone, if_pos hbreak, ih (Text.not_severs_of_cons h)]
  | case4 p c cs hcrlf hbreak ih =>
    have hone : ¬ Text.Severs [c] (cs ++ behind) :=
      Text.not_severs_cons_append (not_severs_singleton hcrlf) h
    rw [List.cons_append, after_cons hone, if_neg hbreak, ih (Text.not_severs_of_cons h)]

/-! ### Lines and columns -/

/-- The text behind the last line break. -/
def lastLine (front : List Char) : List Char :=
  front.rtakeWhile fun c => !Text.isLineBreak c

/-- The position is the one behind `front`, counted in `front` as a whole: the lines are
counted by its line breaks, of which a carriage return with its line feed is one, and the
columns by the characters behind the last one, those outside the Basic Multilingual Plane
twice. -/
structure IsBehind (p : Position) (front : List Char) : Prop where
  line_eq : p.line + (front.zip front.tail).count ('\r', '\n') = 1 + front.countP Text.isLineBreak
  column_eq : p.column = 1 + (lastLine front).length +
    (lastLine front).countP fun c => 0x10000 ≤ c.toNat

theorem count_zip_tail_cons {c : Char} {cs : List Char} (h : ¬ Text.Severs [c] cs) :
    ((c :: cs).zip cs).count ('\r', '\n') = (cs.zip cs.tail).count ('\r', '\n') := by
  cases cs with
  | nil => rfl
  | cons b cs =>
    rw [List.zip_cons_cons, List.count_cons_of_ne, List.tail_cons]
    rintro heq
    obtain ⟨rfl, rfl⟩ := Prod.mk.inj heq
    exact h ⟨rfl, rfl⟩

theorem line_nextLine (p : Position) : p.nextLine.line = p.line + 1 := rfl

theorem line_after (p : Position) (cs : List Char) :
    (p.after cs).line + (cs.zip cs.tail).count ('\r', '\n') =
      p.line + cs.countP Text.isLineBreak := by
  fun_induction after p cs with
  | case1 p => rfl
  | case2 p cs ih =>
    have hrest : (('\n' :: cs).zip cs).count ('\r', '\n') = (cs.zip cs.tail).count ('\r', '\n') :=
      count_zip_tail_cons (not_severs_singleton fun _ heq => absurd heq (by decide))
    rw [List.tail_cons, List.zip_cons_cons, List.count_cons_self, hrest, ← Nat.add_assoc, ih,
      List.countP_cons_of_pos rfl, List.countP_cons_of_pos rfl, line_nextLine]
    omega
  | case3 p c cs hcrlf hbreak ih =>
    rw [List.tail_cons, count_zip_tail_cons (not_severs_singleton hcrlf), ih,
      List.countP_cons_of_pos hbreak, line_nextLine]
    omega
  | case4 p c cs hcrlf hbreak ih =>
    rw [List.tail_cons, count_zip_tail_cons (not_severs_singleton hcrlf), ih,
      List.countP_cons_of_neg hbreak]

/-- Behind a line break a line starts, also if the break has come in two characters. -/
theorem column_after_concat {c : Char} (hc : Text.isLineBreak c) (p : Position) (cs : List Char) :
    (p.after (cs ++ [c])).column = 1 := by
  have hone : ∀ q : Position, (q.after [c]).column = 1 := fun q => by
    rw [after_cons (Text.not_severs_of_head? (by simp) _), if_pos hc]
    rfl
  by_cases hsevers : Text.Severs cs [c]
  · obtain ⟨init, rfl⟩ := List.getLast?_eq_some_iff.mp hsevers.1
    obtain rfl : c = '\n' := Option.some.inj hsevers.2
    rw [List.append_assoc, after_append p (Text.not_severs_of_head? (by decide) init)]
    rfl
  · rw [after_append p hsevers, hone]

theorem column_start_after (cs : List Char) :
    (start.after cs).column = 1 + (lastLine cs).length +
      (lastLine cs).countP fun c => 0x10000 ≤ c.toNat := by
  induction cs using List.reverseRecOn with
  | nil => rfl
  | append_singleton cs c ih =>
    by_cases hc : Text.isLineBreak c
    · rw [column_after_concat hc, lastLine, List.rtakeWhile_concat_neg _ _ _ (by simpa using hc)]
      rfl
    · have hcut : ¬ Text.Severs cs [c] := Text.not_severs_of_head? (fun heq => hc ?_) cs
      · have hunits : unitsOf c = 1 + [c].countP fun c => 0x10000 ≤ c.toNat := by
          rw [unitsOf, List.countP_singleton]
          split <;> simp_all
        rw [lastLine] at ih ⊢
        rw [after_append _ hcut, after_cons (Text.not_severs_of_head? (by simp) _), if_neg hc,
          after_nil, ih, hunits, List.rtakeWhile_concat_pos _ _ _ (by simpa using hc),
          List.countP_append, List.length_append]
        simp only [List.length_singleton]
        omega
      · rw [Option.some.inj heq]
        rfl

theorem isBehind_start_after (front : List Char) : (start.after front).IsBehind front :=
  ⟨line_after start front, column_start_after front⟩

end Position

end Typography
