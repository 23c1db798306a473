import Typography.Proofs.Expansion.Output

/-!
# The output for plain shorthands

A shorthand is plain if it stands for plain nodes, and for one at least. The other marks
are where they were when a plain shorthand is replaced, also right in front of the end of
a block. So for a stylesheet that is read back from its own layout, the output is read as
what the expansion has left if its shorthands are plain, `Processed.bareAll_of_isPlain`.
-/

namespace Typography

/-- A shorthand that stands for something, and for plain nodes only. -/
structure Shorthand.IsPlain (rootSize : Option String) (raw : String) : Prop where
  declarations : ∀ pair ∈ declarationsOf rootSize raw,
    (NodeKind.declaration pair.1 pair.2 false).IsPlain
  media : ∀ query ∈ (ofText raw).media, (NodeKind.mediaBlock query).IsPlain
  ne_nil : (ofText raw).media = none → declarationsOf rootSize raw ≠ []

/-- A media block with a ratio in it. -/
example : Shorthand.IsPlain none "--m 16px 24px" :=
  ⟨by decide +kernel, by decide +kernel, by decide +kernel⟩

namespace Mark

/-- The marks at their places in front of other ones, which start with `next`. -/
def segmentsBefore (next : Option Mark) (depth : Nat) : List Mark → List Segment
  | [] => []
  | mark :: marks =>
    ⟨depth, mark, marks.head?.or next == some closing⟩ ::
      segmentsBefore next (mark.depthBehind depth) marks

theorem segmentsBefore_none (depth : Nat) (marks : List Mark) :
    segmentsBefore none depth marks = segments depth marks := by
  induction marks generalizing depth with
  | nil => rfl
  | cons mark marks ih => rw [segmentsBefore, ih, Option.or_none, segments]

theorem segmentsBefore_append (next : Option Mark) (depth : Nat) (marks more : List Mark) :
    segmentsBefore next depth (marks ++ more) =
      segmentsBefore (more.head?.or next) depth marks ++
        segmentsBefore next (marks.foldl depthBehind depth) more := by
  induction marks generalizing depth with
  | nil => rfl
  | cons mark marks ih =>
    rw [List.cons_append, segmentsBefore, segmentsBefore, ih, List.head?_append, Option.or_assoc]
    rfl

/-- Of what comes next only counts whether it is a closing. -/
theorem segmentsBefore_congr {next next' : Option Mark}
    (h : (next == some closing) = (next' == some closing)) (depth : Nat) (marks : List Mark) :
    segmentsBefore next depth marks = segmentsBefore next' depth marks := by
  induction marks generalizing depth with
  | nil => rfl
  | cons mark marks ih =>
    rw [segmentsBefore, segmentsBefore, ih]
    cases marks with
    | nil => rw [List.head?_nil, Option.none_or, Option.none_or, h]
    | cons other marks => rfl

theorem mem_of_mem_segmentsBefore {next : Option Mark} {depth : Nat} {marks : List Mark}
    {s : Segment} (h : s ∈ segmentsBefore next depth marks) : s.mark ∈ marks := by
  induction marks generalizing depth with
  | nil => simp [segmentsBefore] at h
  | cons mark marks ih =>
    rcases List.mem_cons.mp h with rfl | h
    · exact List.mem_cons_self
    · exact List.mem_cons_of_mem _ (ih h)

/-- The closing of a block, or the mark of a plain node. -/
def IsPlain (mark : Mark) : Prop :=
  mark = closing ∨ ∃ kind : NodeKind, kind.IsPlain ∧ mark = kind.mark

end Mark

namespace Tree

variable {rootSize : Option String}

theorem isPlain_of_mem_generated {declarations : List (String × String)}
    (h : ∀ pair ∈ declarations, (NodeKind.declaration pair.1 pair.2 false).IsPlain)
    {span : Option Span} {mark : Mark} (hmark : mark ∈ marksOfAll (generated span declarations)) :
    mark.IsPlain := by
  rw [marksOfAll_eq_flatMap, generated, List.flatMap_map] at hmark
  obtain ⟨pair, hpair, hmark⟩ := List.mem_flatMap.mp hmark
  rw [List.mem_singleton.mp hmark]
  exact .inr ⟨_, h pair hpair, rfl⟩

theorem isPlain_of_mem_replacement {raw : String} (h : Shorthand.IsPlain rootSize raw)
    {span : Option Span} {mark : Mark}
    (hmark : mark ∈ marksOfAll (replacement rootSize span raw)) : mark.IsPlain := by
  unfold replacement at hmark
  dsimp only at hmark
  split at hmark
  · rename_i query hquery
    rw [marksOfAll_cons, marksOfAll_nil, List.append_nil, marks_of_hasBlock rfl] at hmark
    rcases List.mem_cons.mp hmark with rfl | hmark
    · exact .inr ⟨_, h.media query hquery, rfl⟩
    · rcases List.mem_append.mp hmark with hmark | hmark
      · exact isPlain_of_mem_generated h.declarations hmark
      · exact .inl (List.mem_singleton.mp hmark)
  · exact isPlain_of_mem_generated h.declarations hmark

theorem replacement_ne_nil {raw : String} (h : Shorthand.IsPlain rootSize raw)
    (span : Option Span) : replacement rootSize span raw ≠ [] := by
  unfold replacement
  dsimp only
  split
  · exact List.cons_ne_nil _ _
  · rename_i hmedia
    simpa [generated] using h.ne_nil hmedia

theorem head?_marksOfAll_ne_closing (trees : List Tree) :
    (marksOfAll trees).head? ≠ some .closing := by
  intro h
  obtain ⟨marks, hmarks⟩ := List.head?_eq_some_iff.mp h
  cases trees with
  | nil => simp at hmarks
  | cons tree trees =>
    obtain ⟨mark, others, hfirst⟩ := List.exists_cons_of_ne_nil tree.marks_ne_nil
    rw [marksOfAll_cons, hfirst, List.cons_append] at hmarks
    exact tree.marks_ne_closing_cons others (hfirst.trans (by rw [(List.cons.inj hmarks).1]))

/-- No closing comes next to trees, whatever comes behind them. -/
theorem next_of_ne_nil {trees : List Tree} (h : trees ≠ []) (next : Option Mark) :
    ((marksOfAll trees).head?.or next == some .closing) = false := by
  have hclosing := head?_marksOfAll_ne_closing trees
  cases hmarks : marksOfAll trees with
  | nil =>
    obtain ⟨tree, others, rfl⟩ := List.exists_cons_of_ne_nil h
    exact absurd (List.append_eq_nil_iff.mp hmarks).1 tree.marks_ne_nil
  | cons mark marks =>
    rw [hmarks] at hclosing
    simpa using hclosing

theorem expandedAll_ne_nil {trees : List Tree} (h : trees ≠ [])
    (hplain : ∀ raw ∈ shorthandsOfAll trees, Shorthand.IsPlain rootSize raw) :
    expandedAll rootSize trees ≠ [] := by
  obtain ⟨⟨kind, span, children⟩, trees, rfl⟩ := List.exists_cons_of_ne_nil h
  rw [expandedAll_cons]
  apply List.append_ne_nil_of_left_ne_nil
  cases hraw : kind.shorthand? with
  | some raw =>
    rw [expanded_of_shorthand hraw]
    rw [shorthandsOfAll_cons, shorthands_of_shorthand hraw] at hplain
    exact replacement_ne_nil (hplain raw List.mem_cons_self) span
  | none =>
    rw [expanded_of_none hraw]
    exact List.cons_ne_nil _ _

/-- A closing comes next to rewritten trees where it came next to the trees. -/
theorem next_expandedAll {trees : List Tree}
    (hplain : ∀ raw ∈ shorthandsOfAll trees, Shorthand.IsPlain rootSize raw) (next : Option Mark) :
    ((marksOfAll (expandedAll rootSize trees)).head?.or next == some .closing) =
      ((marksOfAll trees).head?.or next == some .closing) := by
  cases trees with
  | nil => rfl
  | cons tree trees =>
    have hne := List.cons_ne_nil tree trees
    rw [next_of_ne_nil hne, next_of_ne_nil (expandedAll_ne_nil hne hplain)]

/-- What is known of the marks of each rewritten tree is known of all. -/
theorem mem_segmentsBefore_of_each {trees : List Tree}
    (hplain : ∀ raw ∈ shorthandsOfAll trees, Shorthand.IsPlain rootSize raw)
    (heach : ∀ tree ∈ trees, (∀ raw ∈ tree.shorthands, Shorthand.IsPlain rootSize raw) →
      ∀ {next : Option Mark} {depth : Nat} {s : Segment},
        s ∈ Mark.segmentsBefore next depth (marksOfAll (tree.expanded rootSize)) →
        s ∈ Mark.segmentsBefore next depth tree.marks ∨ s.mark.IsPlain)
    {next : Option Mark} {depth : Nat} {s : Segment}
    (hs : s ∈ Mark.segmentsBefore next depth (marksOfAll (expandedAll rootSize trees))) :
    s ∈ Mark.segmentsBefore next depth (marksOfAll trees) ∨ s.mark.IsPlain := by
  induction trees generalizing depth with
  | nil => simp [Mark.segmentsBefore] at hs
  | cons tree trees ih =>
    have hplain' : ∀ raw ∈ shorthandsOfAll trees, Shorthand.IsPlain rootSize raw :=
      fun raw hraw => hplain raw (List.mem_append_right _ hraw)
    rw [expandedAll_cons, marksOfAll_append, Mark.segmentsBefore_append,
      foldl_depthBehind_marksOfAll, List.mem_append,
      Mark.segmentsBefore_congr (next_expandedAll hplain' next)] at hs
    rw [marksOfAll_cons, Mark.segmentsBefore_append, foldl_depthBehind_marks, List.mem_append]
    rcases hs with hs | hs
    · have := heach tree List.mem_cons_self
        (fun raw hraw => hplain raw (List.mem_append_left _ hraw)) hs
      exact this.imp_left .inl
    · have := ih hplain' (fun other hmem => heach other (List.mem_cons_of_mem _ hmem)) hs
      exact this.imp_left .inr

/-- A mark of a rewritten tree is where it was, or stands for a part of a shorthand. -/
theorem mem_segmentsBefore_expanded (tree : Tree)
    (hplain : ∀ raw ∈ tree.shorthands, Shorthand.IsPlain rootSize raw) {next : Option Mark}
    {depth : Nat} {s : Segment}
    (hs : s ∈ Mark.segmentsBefore next depth (marksOfAll (tree.expanded rootSize))) :
    s ∈ Mark.segmentsBefore next depth tree.marks ∨ s.mark.IsPlain := by
  induction tree using induction generalizing next depth s with
  | step kind span children ih =>
    cases hraw : kind.shorthand? with
    | some raw =>
      rw [shorthands_of_shorthand hraw] at hplain
      rw [expanded_of_shorthand hraw] at hs
      exact .inr (isPlain_of_mem_replacement (hplain raw List.mem_cons_self)
        (Mark.mem_of_mem_segmentsBefore hs))
    | none =>
      rw [shorthands_of_none hraw] at hplain
      rw [expanded_of_none hraw, marksOfAll_cons, marksOfAll_nil, List.append_nil] at hs
      cases hblock : kind.hasBlock with
      | false =>
        rw [marks_of_not_hasBlock hblock] at hs ⊢
        exact .inl hs
      | true =>
        rw [marks_of_hasBlock hblock] at hs ⊢
        rcases List.mem_cons.mp hs with rfl | hs
        · left
          rw [Mark.segmentsBefore, List.head?_append, List.head?_append, Option.or_assoc,
            Option.or_assoc]
          rw [show ((([Mark.closing] : List Mark).head?).or next) = some .closing from rfl,
            next_expandedAll hplain (some .closing)]
          exact List.mem_cons_self
        · rw [Mark.segmentsBefore_append, List.mem_append] at hs
          rcases hs with hs | hs
          · have := mem_segmentsBefore_of_each hplain (fun tree hmem hp => ih tree hmem hp) hs
            refine this.imp_left fun hs => List.mem_cons_of_mem _ ?_
            rw [Mark.segmentsBefore_append, List.mem_append]
            exact .inl hs
          · right
            left
            simpa using Mark.mem_of_mem_segmentsBefore hs

theorem mem_segments_expandedAll {trees : List Tree}
    (hplain : ∀ raw ∈ shorthandsOfAll trees, Shorthand.IsPlain rootSize raw) {s : Segment}
    (hs : s ∈ Mark.segments 0 (marksOfAll (expandedAll rootSize trees))) :
    s ∈ Mark.segments 0 (marksOfAll trees) ∨ s.mark.IsPlain := by
  rw [← Mark.segmentsBefore_none] at hs ⊢
  exact mem_segmentsBefore_of_each hplain (fun tree _ h => tree.mem_segmentsBefore_expanded h) hs

/-- Settled trees stay settled when plain shorthands are replaced. -/
theorem AllSettled.expandedAll {trees : List Tree} (h : AllSettled trees)
    (hplain : ∀ raw ∈ shorthandsOfAll trees, Shorthand.IsPlain rootSize raw) :
    AllSettled (expandedAll rootSize trees) := by
  rintro ⟨depth, mark, isLast⟩ hs
  rcases mem_segments_expandedAll hplain hs with hold | hmark
  · exact h _ hold
  · obtain ⟨-, hclosing, hlast⟩ := (closed_marksOfAll _).of_mem_segments hs
    rcases hmark with rfl | ⟨kind, hkind, rfl⟩
    · exact Segment.settled_closing (hclosing rfl)
    · exact Segment.settled_mark hkind hlast

end Tree

namespace Processed

open Typography.Tree

/-- With plain shorthands, what survives reading and writing survives an expansion. -/
theorem bareAll_of_isPlain {file : Option String} {css : String} {options : Options}
    {report : Report} {out : String}
    (hcss : bareAll (Reading.ofText (Layout.stylesheet (Reading.ofText css).trees)).trees =
      bareAll (Reading.ofText css).trees)
    (hplain : ∀ raw ∈ shorthandsOfAll (Reading.ofText css).trees,
      Shorthand.IsPlain options.usedRootSize raw)
    (h : (ofText file css options).result = .ok (report, out)) :
    bareAll (Reading.ofText out).trees = bareAll
        ((Document.ofTrees file (Reading.ofText css).trees).expand options).document.trees ∧
      (ofText file out options).result = .ok (.zero, out) := by
  obtain ⟨-, hleft, hout⟩ := ofText_of_ok h
  obtain ⟨horderly, -⟩ := Reading.orderly_ofText css
  have hsettled := ((bareAll_eq_iff_allSettled horderly).mp hcss).expandedAll hplain
  have hbare := hsettled.bareAll_eq horderly.expandedAll
  rw [← hout] at hbare
  exact ⟨hleft ▸ hbare, result_of_bareAll_eq h hbare⟩

end Processed

end Typography
