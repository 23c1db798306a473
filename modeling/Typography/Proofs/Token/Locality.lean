import Typography.Proofs.Token.Boundary

/-!
# What a scan does not look at

A scan that leaves the end of a text comes to the same lexeme and the same value with
another end that may stand in its place. `Scan.Alike` relates such scans; each scanner that
leaves the end is alike on both texts.
-/

namespace Typography

/-- Scans that took the same and leave texts that are the same up to their ends. -/
structure Scan.Alike (X Y : List Char) {α : Type} (s t : Scan α) : Prop where
  lexeme_eq : s.lexeme = t.lexeme
  value_eq : s.value = t.value
  rest : Text.SameBefore X Y s.rest t.rest

namespace Scan.Alike

variable {X Y : List Char} {α β : Type} {s t : Scan α}

theorem behind (h : Alike X Y s t) (before : List Char) (f : α → β) :
    Alike X Y (s.behind before f) (t.behind before f) :=
  ⟨by rw [lexeme_behind, lexeme_behind, h.lexeme_eq], by
    rw [value_behind, value_behind, h.value_eq], h.rest⟩

theorem map (h : Alike X Y s t) (f : α → β) : Alike X Y (s.map f) (t.map f) :=
  ⟨h.lexeme_eq, by rw [value_map, value_map, h.value_eq], h.rest⟩

end Scan.Alike

open Text

variable {X Y x y : List Char}

namespace Escape

theorem alike_scan (hj : Joint X Y) (hfirm : Firm X Y x y) (h : SameBefore X Y x y)
    (hrest : X.length ≤ (scan x).rest.length) : Scan.Alike X Y (scan x) (scan y) := by
  have hlexeme := hfirm.lexeme_eq hrest
  refine ⟨hlexeme, ?_, h.rest (splits_scan x) (splits_scan y) hlexeme hrest⟩
  cases h with
  | here =>
    have hlt := length_rest_scan_lt hj.ne_nil
    omega
  | cons c _ h =>
    rw [scan, scan]
    by_cases hc : isHex c
    · rw [if_pos hc, if_pos hc]
      simp only [h.take_takeWhile_eq (fun _ hd => hd.isHex_eq) hj]
    · rw [if_neg hc, if_neg hc]

end Escape

namespace Name

theorem starts_of_isEdge {d : Char} (hd : IsEdge d) (r : List Char) : starts (d :: r) = false := by
  have hpart := hd.isPart_eq
  simp only [isPart, Bool.or_eq_false_iff] at hpart
  have hm : d ≠ '-' := hd.ne (by decide)
  have hb : d ≠ '\\' := hd.ne (by decide)
  unfold starts
  split <;> simp_all

theorem startsHash_of_isEdge {d : Char} (hd : IsEdge d) (r : List Char) :
    startsHash (d :: r) = false := by
  simp [startsHash, starts_of_isEdge hd, hd.isDigit_eq, hd.ne (show ¬IsEdge '-' by decide)]

theorem starts_eq (hj : Joint X Y) (h : SameBefore X Y x y) : starts x = starts y := by
  cases h with
  | here => exact hj.eq_of_isStop fun d r hd => starts_of_isEdge hd.isEdge r
  | cons c hfirm h =>
    by_cases hb : c = '\\'
    · subst hb
      rw [starts, starts, (hfirm rfl).startsLineBreak_eq]
    · by_cases hm : c = '-'
      · subst hm
        cases h with
        | here =>
          refine hj.eq_of_isStop (f := fun cs => starts ('-' :: cs)) fun d r hd => ?_
          have hpart := hd.isEdge.isPart_eq
          simp only [isPart, Bool.or_eq_false_iff] at hpart
          have hb : d ≠ '\\' := hd.isEdge.ne (by decide)
          simp only [starts, hpart.1.1, hpart.2, beq_eq_false_iff_ne.mpr hb]
          decide
        | cons c' _ h => rfl
      · unfold starts
        split <;> simp_all

theorem startsHash_eq (hj : Joint X Y) (h : SameBefore X Y x y) : startsHash x = startsHash y := by
  have hstarts := starts_eq hj h
  cases h with
  | here => exact hj.eq_of_isStop fun d r hd => startsHash_of_isEdge hd.isEdge r
  | cons c _ h => simp [startsHash, hstarts]

theorem scan_of_isEdge {d : Char} (hd : IsEdge d) (r : List Char) :
    scan (d :: r) = ⟨[], [], d :: r⟩ := by
  have hb : d ≠ '\\' := hd.ne (by decide)
  rw [scan, if_neg (by simp [hd.isPart_eq]), if_neg (by simp [hb])]

/-- Where the ends are no name is read. -/
theorem alike_scan_ends (hj : Joint X Y) : Scan.Alike X Y (scan X) (scan Y) := by
  have hX : scan X = ⟨[], [], X⟩ := by
    obtain ⟨d, r, rfl, hd⟩ := hj.exists_isStop
    exact scan_of_isEdge hd.isEdge r
  have hY : scan Y = ⟨[], [], Y⟩ := by
    cases Y with
    | nil => rw [scan]
    | cons d r => exact scan_of_isEdge hj.isBreak_of_cons.isEdge r
  rw [hX, hY]
  exact ⟨rfl, rfl, .here⟩

theorem alike_scan (hj : Joint X Y) (h : SameBefore X Y x y)
    (hrest : X.length ≤ (scan x).rest.length) : Scan.Alike X Y (scan x) (scan y) := by
  have hhere := alike_scan_ends hj
  fun_induction scan x generalizing y with
  | case1 => exact absurd rfl (h.ne_nil hj)
  | case2 c cs hpart ih =>
    cases h with
    | here =>
      rw [scan, if_pos hpart] at hhere
      exact hhere
    | cons _ _ h =>
      rw [scan, if_pos hpart]
      exact (ih h hrest).behind [c] _
  | case3 c cs hpart hesc ih =>
    cases h with
    | here =>
      rw [scan, if_neg hpart, if_pos hesc] at hhere
      exact hhere
    | cons _ hfirm h =>
      obtain ⟨rfl, hline⟩ := hesc
      have hfirm := hfirm rfl
      have hle := (splits_scan (Escape.scan cs).rest).length_rest_le
      have halike := Escape.alike_scan hj hfirm h (Nat.le_trans hrest hle)
      rw [scan, if_neg hpart, if_pos ⟨rfl, hfirm.startsLineBreak_eq ▸ hline⟩, halike.lexeme_eq,
        halike.value_eq]
      exact (ih halike.rest hrest).behind _ _
  | case4 c cs hpart hesc =>
    cases h with
    | here =>
      rw [scan, if_neg hpart, if_neg hesc] at hhere
      exact hhere
    | cons _ hfirm h =>
      rename_i y
      have hesc' : ¬(c = '\\' ∧ startsLineBreak y = false) := by
        rintro ⟨hc, hline⟩
        exact hesc ⟨hc, (hfirm hc).startsLineBreak_eq.trans hline⟩
      rw [scan, if_neg hpart, if_neg hesc']
      exact ⟨rfl, rfl, .cons c hfirm h⟩

end Name

namespace Numeric

theorem sign_of_isEdge {d : Char} (hd : IsEdge d) (r : List Char) : sign (d :: r) = [] := by
  have hp : d ≠ '+' := hd.ne (by decide)
  have hm : d ≠ '-' := hd.ne (by decide)
  simp [sign, hp, hm]

theorem sign_eq (hj : Joint X Y) (h : SameBefore X Y x y) : sign x = sign y := by
  cases h with
  | here => exact hj.eq_of_isStop fun d r hd => sign_of_isEdge hd.isEdge r
  | cons c _ h => rfl

theorem not_mem_sign {d : Char} (hd : IsEdge d) (x : List Char) : d ∉ sign x := by
  have hp : d ≠ '+' := hd.ne (by decide)
  have hm : d ≠ '-' := hd.ne (by decide)
  unfold sign
  split
  · split
    · rename_i c _ hc
      rcases hc with rfl | rfl <;> simp [hp, hm]
    · simp
  · simp

theorem digits_eq (hj : Joint X Y) (h : SameBefore X Y x y) : digits x = digits y :=
  h.takeWhile_eq (fun _ hd => hd.isDigit_eq) hj

theorem not_mem_digits {d : Char} (hd : IsEdge d) (x : List Char) : d ∉ digits x := by
  intro hmem
  have := List.all_eq_true.mp List.all_takeWhile d hmem
  simp [hd.isDigit_eq] at this

theorem fraction_eq (hj : Joint X Y) (h : SameBefore X Y x y) : fraction x = fraction y := by
  cases h with
  | here =>
    refine hj.eq_of_isStop fun d r hd => ?_
    have hp : d ≠ '.' := hd.isEdge.ne (by decide)
    simp [fraction, hp]
  | cons c _ h =>
    by_cases hc : c = '.'
    · subst hc
      simp [fraction, digits_eq hj h]
    · simp [fraction, hc]

theorem not_mem_fraction {d : Char} (hd : IsEdge d) (x : List Char) : d ∉ fraction x := by
  have hp : d ≠ '.' := hd.ne (by decide)
  unfold fraction
  split
  · split
    · simp
    · simp [hp, not_mem_digits hd]
  · simp

theorem exponent_eq (hj : Joint X Y) (h : SameBefore X Y x y) : exponent x = exponent y := by
  cases h with
  | here =>
    refine hj.eq_of_isStop fun d r hd => ?_
    have he : d ≠ 'e' := hd.isEdge.ne (by decide)
    have hE : d ≠ 'E' := hd.isEdge.ne (by decide)
    simp [exponent, he, hE]
  | cons c _ h =>
    have hdigits := digits_eq hj (h.front hj (sign_front _) fun d hd => not_mem_sign hd _)
    rw [exponent, exponent, ← sign_eq hj h, hdigits]

theorem extent_eq (hj : Joint X Y) (h : SameBefore X Y x y) : extent x = extent y := by
  have hsign := sign_eq hj h
  have h₁ := h.front hj (sign_front x) fun d hd => not_mem_sign hd x
  have hwhole := digits_eq hj h₁
  have h₂ := h₁.front hj (digits_front _) fun d hd => not_mem_digits hd _
  have hpart := fraction_eq hj h₂
  have h₃ := h₂.front hj (fraction_front _) fun d hd => not_mem_fraction hd _
  have hexponent := exponent_eq hj h₃
  unfold extent
  dsimp only
  rw [← hsign, ← hwhole, ← hpart, ← hexponent]

theorem not_mem_exponent {d : Char} (hd : IsEdge d) (x : List Char) : d ∉ exponent x := by
  have he : d ≠ 'e' := hd.ne (by decide)
  have hE : d ≠ 'E' := hd.ne (by decide)
  unfold exponent
  split
  · split
    · rename_i c _ hc
      rcases hc.1 with rfl | rfl <;> simp [he, hE, not_mem_sign hd, not_mem_digits hd]
    · simp
  · simp

theorem not_mem_extent {d : Char} (hd : IsEdge d) (x : List Char) : d ∉ extent x := by
  unfold extent
  dsimp only
  split
  · simp
  · simp [not_mem_sign hd, not_mem_digits hd, not_mem_fraction hd, not_mem_exponent hd]

theorem alike_scan (hj : Joint X Y) (h : SameBefore X Y x y) :
    Scan.Alike X Y (scan x) (scan y) := by
  have hrest := h.front hj (extent_front x) fun d hd => not_mem_extent hd x
  have hextent := extent_eq hj h
  refine ⟨hextent, hextent, ?_⟩
  rwa [scan, scan, ← hextent]

end Numeric

namespace Quoted

theorem isEmpty_of_startsLineBreak {y : List Char} (h : startsLineBreak y) : y.isEmpty = false := by
  cases y with
  | nil => cases h
  | cons => rfl

/-- An escape that is the same in both texts takes a character off. -/
theorem isEmpty_of_escape (hj : Joint X Y) (h : SameBefore X Y x y)
    (hescape : X.length ≤ (Escape.scan x).rest.length) : y.isEmpty = false := by
  cases h with
  | here =>
    have := Escape.length_rest_scan_lt hj.ne_nil
    omega
  | cons => rfl

/-- A quoted text has the same lexeme with another end. A line break at the end that cuts it
off cuts it off in the other text too, unless there is nothing in the place of the end. -/
theorem scan_eq (hj : Joint X Y) {quote : Char} (h : SameBefore X Y x y)
    (hrest : X.length ≤ (scan quote x).rest.length) :
    (scan quote x).lexeme = (scan quote y).lexeme ∧
      (((scan quote x).value.isBroken → (scan quote x).rest = X → startsLineBreak X → Y ≠ []) →
        (scan quote x).value = (scan quote y).value) := by
  fun_induction scan quote x generalizing y with
  | case1 => exact absurd rfl (h.ne_nil hj)
  | case2 cs =>
    obtain ⟨y, rfl, -, h⟩ := h.exists_of_cons_of_le hrest
    rw [scan, if_pos rfl]
    exact ⟨rfl, fun _ => rfl⟩
  | case3 c cs hq hline =>
    cases h with
    | here =>
      cases hj with
      | same hd r r' =>
        rw [scan, if_neg hq, if_pos hline]
        exact ⟨rfl, fun _ => rfl⟩
      | none hd r =>
        rw [scan]
        exact ⟨rfl, fun hbroken => absurd rfl (hbroken rfl rfl hline)⟩
      | gap he r r' => simp [isLineBreak] at hline
    | cons _ hfirm h =>
      rw [scan, if_neg hq, if_pos hline]
      exact ⟨rfl, fun _ => rfl⟩
  | case4 cs hempty hq hline =>
    obtain rfl := List.isEmpty_iff.mp hempty
    have hpos := hj.length_pos
    simp only [List.length_nil] at hrest
    omega
  | case5 cs hempty hbreak hq hline ih =>
    have hle := (splits_scan quote (afterLineBreak cs)).length_rest_le
    have hafter := Nat.le_trans hrest hle
    obtain ⟨y, rfl, hfirm, h⟩ :=
      h.exists_of_cons_of_le (Nat.le_trans hafter (length_afterLineBreak_le cs))
    have hfirm := hfirm rfl
    have hbreak' := hfirm.startsLineBreak_eq.symm.trans hbreak
    have hy := isEmpty_of_startsLineBreak hbreak'
    obtain ⟨hlineBreak, h⟩ := h.lineBreak hfirm hafter
    obtain ⟨hlexeme, hvalue⟩ := ih h hrest
    rw [scan, if_neg hq, if_neg hline, if_pos rfl, if_neg (by simp [hy]), if_pos hbreak',
      ← hlineBreak]
    exact ⟨congrArg (_ ++ ·) hlexeme, hvalue⟩
  | case6 cs hempty hbreak hq hline ih =>
    have hle := (splits_scan quote (Escape.scan cs).rest).length_rest_le
    have hescape : X.length ≤ (Escape.scan cs).rest.length := Nat.le_trans hrest hle
    obtain ⟨y, rfl, hfirm, h⟩ :=
      h.exists_of_cons_of_le (Nat.le_trans hescape (Escape.splits_scan cs).length_rest_le)
    have hfirm := hfirm rfl
    have hy := isEmpty_of_escape hj h hescape
    have halike := Escape.alike_scan hj hfirm h hescape
    obtain ⟨hlexeme, hvalue⟩ := ih halike.rest hrest
    rw [scan, if_neg hq, if_neg hline, if_pos rfl, if_neg (by simp [hy]),
      if_neg (by rwa [← hfirm.startsLineBreak_eq]), halike.lexeme_eq, halike.value_eq]
    exact ⟨congrArg (_ ++ ·) hlexeme, fun hbroken => congrArg (behind _) (hvalue hbroken)⟩
  | case7 c cs hq hline hc ih =>
    have hle := (splits_scan quote cs).length_rest_le
    obtain ⟨y, rfl, -, h⟩ := h.exists_of_cons_of_le (Nat.le_trans hrest hle)
    obtain ⟨hlexeme, hvalue⟩ := ih h hrest
    rw [scan, if_neg hq, if_neg hline, if_neg hc]
    exact ⟨congrArg (_ ++ ·) hlexeme, fun hbroken => congrArg (behind _) (hvalue hbroken)⟩

theorem alike_scan (hj : Joint X Y) {quote : Char} (h : SameBefore X Y x y)
    (hrest : X.length ≤ (scan quote x).rest.length)
    (hbroken : (scan quote x).value.isBroken → (scan quote x).rest = X → startsLineBreak X →
      Y ≠ []) :
    Scan.Alike X Y (scan quote x) (scan quote y) := by
  obtain ⟨hlexeme, hvalue⟩ := scan_eq hj h hrest
  exact ⟨hlexeme, hvalue hbroken,
    h.rest (splits_scan quote x) (splits_scan quote y) hlexeme hrest⟩

end Quoted

namespace Address

theorem alike_scanBroken (hj : Joint X Y) (h : SameBefore X Y x y)
    (hrest : X.length ≤ (scanBroken x).rest.length) :
    Scan.Alike X Y (scanBroken x) (scanBroken y) := by
  fun_induction scanBroken x generalizing y with
  | case1 => exact absurd rfl (h.ne_nil hj)
  | case2 cs =>
    obtain ⟨y, rfl, -, h⟩ := h.exists_of_cons_of_le hrest
    exact ⟨rfl, rfl, h⟩
  | case3 cs ih =>
    obtain ⟨y', rfl, h'⟩ := h.exists_of_append (u := ['\\', ')']) hj (by decide)
    exact (ih h' hrest).behind _ _
  | case4 cs ih =>
    obtain ⟨y', rfl, h'⟩ := h.exists_of_append (u := ['\\', '\\']) hj (by decide)
    exact (ih h' hrest).behind _ _
  | case5 c cs hc hc₁ hc₂ ih =>
    have hle := (splits_scanBroken cs).length_rest_le
    obtain ⟨y, rfl, -, h'⟩ := h.exists_of_cons_of_le (Nat.le_trans hrest hle)
    rw [scanBroken]
    · exact (ih h' hrest).behind _ _
    · exact hc
    · rintro cs' rfl rfl
      obtain ⟨x', rfl, -⟩ := h'.exists_of_cons_right hj (by decide)
      exact hc₁ x' rfl rfl
    · rintro cs' rfl rfl
      obtain ⟨x', rfl, -⟩ := h'.exists_of_cons_right hj (by decide)
      exact hc₂ x' rfl rfl

theorem alike_broken (hj : Joint X Y) (written : List Char) (h : SameBefore X Y x y)
    (hrest : X.length ≤ (broken written x).rest.length) :
    Scan.Alike X Y (broken written x) (broken written y) :=
  (alike_scanBroken hj h hrest).behind _ _

theorem scanEnd_of_ne {text : List Char} {c : Char} {cs : List Char}
    (h : text.dropWhile isSpace = c :: cs) (hc : c ≠ ')') :
    scanEnd text = broken (text.takeWhile isSpace ++ [c]) cs := by
  unfold scanEnd
  rw [h]
  split
  · simp_all
  · simp_all
  · rename_i c' cs' _ heq
    obtain ⟨rfl, rfl⟩ := List.cons.inj heq
    rfl

theorem scanEnd_of_close {text cs : List Char} (h : text.dropWhile isSpace = ')' :: cs) :
    scanEnd text = ⟨text.takeWhile isSpace ++ [')'], ⟨[], false⟩, cs⟩ := by
  unfold scanEnd
  rw [h]
  rfl

theorem scanEnd_of_nil {text : List Char} (h : text.dropWhile isSpace = []) :
    scanEnd text = ⟨text.takeWhile isSpace, ⟨[], false⟩, []⟩ := by
  unfold scanEnd
  rw [h]

/-- The end of an address leaves less than what stands behind its whitespace. -/
theorem lt_length_dropWhile_of_scanEnd {n : Nat} (hn : 0 < n) {text : List Char}
    (hrest : n ≤ (scanEnd text).rest.length) : n < (text.dropWhile isSpace).length := by
  cases hdrop : text.dropWhile isSpace with
  | nil =>
    rw [scanEnd_of_nil hdrop] at hrest
    simp only [List.length_nil] at hrest
    omega
  | cons c cs =>
    by_cases hc : c = ')'
    · subst hc
      rw [scanEnd_of_close hdrop] at hrest
      exact Nat.lt_succ_of_le hrest
    · rw [scanEnd_of_ne hdrop hc] at hrest
      exact Nat.lt_succ_of_le (Nat.le_trans hrest (splits_scanBroken cs).length_rest_le)

/-- Behind whitespace that is followed by more than the end stands the same character. -/
theorem exists_dropWhile_eq_cons (h : SameBefore X Y x y)
    (hlt : X.length < (x.dropWhile isSpace).length) :
    x.takeWhile isSpace = y.takeWhile isSpace ∧ ∃ c x' y', x.dropWhile isSpace = c :: x' ∧
      y.dropWhile isSpace = c :: y' ∧ SameBefore X Y (c :: x') (c :: y') ∧
      SameBefore X Y x' y' := by
  obtain ⟨htake, hdrop⟩ := h.span (p := isSpace) (Nat.le_of_lt hlt) fun heq => by
    rw [heq] at hlt
    exact absurd hlt (Nat.lt_irrefl _)
  refine ⟨htake, ?_⟩
  generalize x.dropWhile isSpace = x' at hdrop hlt
  generalize y.dropWhile isSpace = y' at hdrop
  cases hdrop with
  | here => exact absurd hlt (Nat.lt_irrefl _)
  | cons c hfirm h => exact ⟨c, _, _, rfl, rfl, .cons c hfirm h, h⟩

theorem alike_scanEnd (hj : Joint X Y) (h : SameBefore X Y x y)
    (hrest : X.length ≤ (scanEnd x).rest.length) :
    Scan.Alike X Y (scanEnd x) (scanEnd y) := by
  obtain ⟨htake, c, x', y', hx, hy, -, h'⟩ :=
    exists_dropWhile_eq_cons h (lt_length_dropWhile_of_scanEnd hj.length_pos hrest)
  by_cases hc : c = ')'
  · subst hc
    rw [scanEnd_of_close hx, scanEnd_of_close hy, htake]
    exact ⟨rfl, rfl, h'⟩
  · rw [scanEnd_of_ne hx hc] at hrest ⊢
    rw [scanEnd_of_ne hy hc, ← htake]
    exact alike_broken hj _ h' hrest

/-- An address is at least one character long, unless the text is empty. -/
theorem length_rest_scanBody_lt {text : List Char} (h : text ≠ []) :
    (scanBody text).rest.length < text.length := by
  refine (splits_scanBody text).length_rest_lt ?_
  obtain ⟨c, cs, rfl⟩ := List.exists_cons_of_ne_nil h
  rw [scanBody]
  split
  · simp
  split
  · rename_i hspace
    unfold scanEnd
    split <;> simp [hspace, broken]
  split
  · simp [broken]
  split
  · split <;> simp [broken]
  · simp

theorem alike_scanBody (hj : Joint X Y) (h : SameBefore X Y x y)
    (hrest : X.length ≤ (scanBody x).rest.length) :
    Scan.Alike X Y (scanBody x) (scanBody y) := by
  have hlt : X.length < x.length :=
    Nat.lt_of_le_of_lt hrest (length_rest_scanBody_lt (h.ne_nil hj))
  -- an address that leaves the end starts before it, and so does what is read behind an escape
  have hbehind : ∀ {cs}, X.length ≤ (scanBody cs).rest.length → X.length < cs.length := by
    intro cs hcs
    refine Nat.lt_of_le_of_lt hcs (length_rest_scanBody_lt fun hnil => ?_)
    rw [hnil, scanBody] at hcs
    exact absurd hcs (Nat.not_le_of_lt hj.length_pos)
  fun_induction scanBody x generalizing y with
  | case1 => exact absurd rfl (h.ne_nil hj)
  | case2 cs =>
    obtain ⟨y, rfl, -, h⟩ := h.exists_of_cons_of_le (Nat.le_of_lt_succ hlt)
    rw [scanBody, if_pos rfl]
    exact ⟨rfl, rfl, h⟩
  | case3 c cs hc hspace =>
    obtain ⟨y, rfl, hfirm, h⟩ := h.exists_of_cons_of_le (Nat.le_of_lt_succ hlt)
    rw [scanBody, if_neg hc, if_pos hspace]
    exact alike_scanEnd hj (.cons c hfirm h) hrest
  | case4 c cs hc hspace hforbidden =>
    obtain ⟨y, rfl, -, h⟩ := h.exists_of_cons_of_le (Nat.le_of_lt_succ hlt)
    rw [scanBody, if_neg hc, if_neg hspace, if_pos hforbidden]
    exact alike_broken hj _ h hrest
  | case5 cs hline hc hspace hforbidden =>
    obtain ⟨y, rfl, hfirm, h⟩ := h.exists_of_cons_of_le (Nat.le_of_lt_succ hlt)
    rw [scanBody, if_neg hc, if_neg hspace, if_neg hforbidden, if_pos rfl,
      if_pos (by rwa [← (hfirm rfl).startsLineBreak_eq])]
    exact alike_broken hj _ h hrest
  | case6 cs hline hc hspace hforbidden ih =>
    obtain ⟨y, rfl, hfirm, h⟩ := h.exists_of_cons_of_le (Nat.le_of_lt_succ hlt)
    have hfirm := hfirm rfl
    have hlt' := hbehind hrest
    have halike := Escape.alike_scan hj hfirm h (Nat.le_of_lt hlt')
    rw [scanBody, if_neg hc, if_neg hspace, if_neg hforbidden, if_pos rfl,
      if_neg (by rwa [← hfirm.startsLineBreak_eq]), halike.lexeme_eq, halike.value_eq]
    exact (ih halike.rest hrest hlt').behind _ _
  | case7 c cs hc hspace hforbidden hslash ih =>
    obtain ⟨y, rfl, -, h⟩ := h.exists_of_cons_of_le (Nat.le_of_lt_succ hlt)
    rw [scanBody, if_neg hc, if_neg hspace, if_neg hforbidden, if_neg hslash]
    exact (ih h hrest (hbehind hrest)).behind _ _

theorem scan?_of_not_quote {text body : List Char} (h : text.dropWhile isSpace = body)
    (hquote : ∀ c cs, body = c :: cs → c ≠ '"' ∧ c ≠ '\'') :
    scan? text = some ((scanBody body).behind (text.takeWhile isSpace) id) := by
  unfold scan?
  rw [h]
  split
  · exact absurd rfl (hquote _ _ rfl).1
  · exact absurd rfl (hquote _ _ rfl).2
  · rfl

theorem scan?_of_quote {text : List Char} {c : Char} {cs : List Char}
    (h : text.dropWhile isSpace = c :: cs) (hc : c = '"' ∨ c = '\'') : scan? text = none := by
  unfold scan?
  rw [h]
  rcases hc with rfl | rfl <;> rfl

/-- Where whitespace is followed by more than the end, an address comes behind both texts or
behind none. -/
theorem alike_scan? (hj : Joint X Y) (h : SameBefore X Y x y)
    (hlt : X.length < (x.dropWhile isSpace).length) :
    (scan? x = none ∧ scan? y = none) ∨
      ∃ s t, scan? x = some s ∧ scan? y = some t ∧
        (X.length ≤ s.rest.length → Scan.Alike X Y s t) := by
  obtain ⟨htake, c, x', y', hx, hy, h', -⟩ := exists_dropWhile_eq_cons h hlt
  by_cases hc : c = '"' ∨ c = '\''
  · exact .inl ⟨scan?_of_quote hx hc, scan?_of_quote hy hc⟩
  · rw [not_or] at hc
    refine .inr ⟨_, _, scan?_of_not_quote hx ?_, scan?_of_not_quote hy ?_, fun hrest => ?_⟩
    · rintro _ _ ⟨⟩
      exact hc
    · rintro _ _ ⟨⟩
      exact hc
    · rw [← htake]
      exact (alike_scanBody hj h' hrest).behind _ id

/-- An address leaves less than what stands behind the whitespace at its front. -/
theorem lt_length_dropWhile_of_scan? {n : Nat} (hn : 0 < n) {text : List Char} {s : Scan Address}
    (hs : scan? text = some s) (hrest : n ≤ s.rest.length) :
    n < (text.dropWhile isSpace).length := by
  have hbody : s.rest = (scanBody (text.dropWhile isSpace)).rest := by
    unfold scan? at hs
    split at hs
    · simp at hs
    · simp at hs
    · rw [← Option.some.inj hs]
      rfl
  cases hdrop : text.dropWhile isSpace with
  | nil =>
    rw [hbody, hdrop, scanBody] at hrest
    simp only [List.length_nil] at hrest
    omega
  | cons c cs =>
    have hlt := length_rest_scanBody_lt (List.cons_ne_nil c cs)
    rw [hbody, hdrop] at hrest
    omega

/-- Whitespace that is followed by a quote is followed by more than the end. -/
theorem lt_length_dropWhile_of_scan?_eq_none (hj : Joint X Y)
    (hX : ∀ c ∈ X.head?, isSpace c = false) (h : SameBefore X Y x y) (hnone : scan? x = none) :
    X.length < (x.dropWhile isSpace).length := by
  have hquote : ∀ {text : List Char}, scan? text = none →
      ∃ c cs, text.dropWhile isSpace = c :: cs ∧ (c = '"' ∨ c = '\'') := by
    intro text h
    unfold scan? at h
    split at h
    · exact ⟨_, _, ‹_›, .inl rfl⟩
    · exact ⟨_, _, ‹_›, .inr rfl⟩
    · simp at h
  obtain ⟨c, cs, hdrop, hc⟩ := hquote hnone
  clear hnone
  induction h with
  | here =>
    obtain ⟨d, r, rfl, hd⟩ := hj.exists_isStop
    rw [List.dropWhile_cons, hX d rfl] at hdrop
    obtain ⟨rfl, -⟩ := List.cons.inj hdrop
    rcases hc with rfl | rfl <;> exact absurd hd (by decide)
  | cons c' _ h ih =>
    rw [List.dropWhile_cons] at hdrop ⊢
    split
    · rename_i hspace
      rw [if_pos hspace] at hdrop
      exact ih hdrop
    · exact Nat.lt_succ_of_le h.length_le

end Address

end Typography
