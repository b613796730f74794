import Abnf.Proofs.History

/-!
# Abnf.Proofs.Nesting — marks resolve what they bracket

A mark is on top again when all that were set after it are resolved, whoever set and resolved them:
rules may leave marks behind, and others resolve them later.  All that is asked of a use is that at no
moment of it there are fewer marks than when it began.  What lies below that depth is then out of
reach of every operation (`Step.suffix_marks`), so that it stays as it is at all depths that the use
goes through (`History.suffix_marks`).

* `Scanner.marks_bracket`: going back and keeping, after any such use.
-/

namespace Abnf.Scanner

variable {α : Type} {s t now : Scanner α} {base : List Nat}

/-! ### What lies deeper -/

@[simp] theorem marks_rollback (s : Scanner α) : s.rollback.2.marks = s.marks.tail := by
  unfold rollback
  split <;> simp [*]

@[simp] theorem marks_commit (s : Scanner α) : s.commit.2.marks = s.marks.tail := by
  unfold commit
  split <;> simp [*]

/-- An operation that leaves as many marks leaves them as they are: only the latest one can be
resolved. -/
theorem Step.suffix_marks (h : Step s t) (hs : base <:+ s.marks) (hdepth : base.length ≤ t.depth) :
    base <:+ t.marks := by
  cases h with
  | peek =>
    rw [marks_peek]
    exact hs
  | advance =>
    rw [marks_advance]
    exact hs
  | pushMark => exact hs.trans (List.suffix_cons _ _)
  | rollback =>
    rw [depth, marks_rollback] at hdepth
    rw [marks_rollback]
    exact List.suffix_of_suffix_length_le hs (List.tail_suffix _) hdepth
  | commit =>
    rw [depth, marks_commit] at hdepth
    rw [marks_commit]
    exact List.suffix_of_suffix_length_le hs (List.tail_suffix _) hdepth
  | report => exact hs

/-- Along a chain of operations that never leaves fewer marks, they are there at each of its
scanners. -/
theorem suffix_marks_of_isChain {l : List (Scanner α)}
    (h : (s :: l).IsChain (Relation.ReflGen Step)) (hs : base <:+ s.marks)
    (hdepth : ∀ u ∈ s :: l, base.length ≤ u.depth) : ∀ u ∈ s :: l, base <:+ u.marks := by
  induction l generalizing s with
  | nil =>
    intro u hu
    rw [List.mem_singleton.mp hu]
    exact hs
  | cons next rest ih =>
    obtain ⟨hstep, hrest⟩ := List.isChain_cons_cons.mp h
    have hlater : ∀ u ∈ next :: rest, base.length ≤ u.depth := fun u hu =>
      hdepth u (List.mem_cons_of_mem _ hu)
    have hnext : base <:+ next.marks := by
      cases hstep with
      | refl => exact hs
      | single hstep => exact hstep.suffix_marks hs (hlater next List.mem_cons_self)
    rintro u (_ | ⟨_, hu⟩)
    · exact hs
    · exact ih hrest hnext hlater u hu

variable [Symbol α] {past : List (Scanner α)}

theorem History.suffix_marks (h : History s past now) (hs : base <:+ s.marks)
    (hdepth : ∀ u ∈ past ++ [now], base.length ≤ u.depth) : base <:+ now.marks := by
  obtain ⟨hhead, hchain⟩ := h.isChain
  obtain ⟨rest, hrest⟩ : ∃ rest, past ++ [now] = s :: rest :=
    ⟨_, (List.cons_head?_tail hhead).symm⟩
  rw [hrest] at hchain hdepth
  have hnow : now ∈ s :: rest := by simp [← hrest]
  exact suffix_marks_of_isChain hchain hs hdepth now hnow

/-- What comes of a history comes of single operations. -/
theorem History.steps (h : History s past now) : Steps s now := by
  induction h with
  | start => exact .refl
  | step _ hstep ih => exact ih.tail hstep
  | apply _ g fuel rule hseen ih =>
    refine ih.trans (@Rule.steps_of_mem_moments _ _ g fuel rule _ _ (hseen.subset ?_))
    exact List.mem_append_right _ (List.mem_singleton_self _)

/-- An application that comes to an end passed through all its moments. -/
theorem History.of_apply (h : History s past t) {g : Grammar (Rule α)} {fuel : Nat} {rule : Rule α}
    {o : Outcome} (happly : rule.apply g fuel t = some (o, now)) :
    History s (past ++ (rule.moments g fuel t).dropLast) now := by
  have hlast : (rule.moments g fuel t).getLast? = some now :=
    (rule.chainFrom_moments g fuel t).2 o now happly
  have hmoments : (rule.moments g fuel t).dropLast ++ [now] = rule.moments g fuel t :=
    List.dropLast_append_getLast? now hlast
  exact h.apply g fuel rule ⟨[], by rw [hmoments, List.append_nil]⟩

/-! ### The mark on top -/

/-- **Marks bracket what is done behind them.**  A mark is set, and then a scanner is used in any way,
by operations and applications of any rules, failed ones included, such that at no moment there are
fewer marks than with that one, and at the end as many.  Going back then leads to the position and the
marks from before, and to keep answers just what was consumed since and leaves the marks from before.
What was buffered still is, and so is all that was consumed. -/
theorem marks_bracket {source : Source α} (hs : Reaches (ofSource source) s)
    (h : History s.pushMark past now) (habove : ∀ u ∈ past ++ [now], s.depth + 1 ≤ u.depth)
    (hend : now.depth = s.depth + 1) :
    (∃ t, now.rollback = (.ok (), t) ∧ t.position = s.position ∧ t.marks = s.marks ∧
        s.buffer.toList <+: t.buffer.toList) ∧
      ∃ t, now.commit = (.ok ⟨s.position, now.position⟩, t) ∧
        Span.ofBounds? s.position now.position = some ⟨s.position, now.position⟩ ∧
        t.marks = s.marks ∧ t.position = now.position ∧
        s.buffer.toList <+: t.buffer.toList ∧ now.position ≤ t.buffer.size := by
  have hsuffix : s.position :: s.marks <:+ now.marks := h.suffix_marks List.suffix_rfl habove
  have hmarks : now.marks = s.position :: s.marks := (hsuffix.eq_of_length hend.symm).symm
  have hsteps : Steps s now := .of_step (.pushMark s) h.steps
  have hbuffer : s.buffer.toList <+: now.buffer.toList := buffer_steps hsteps
  have hordered : now.Ordered := ((Ordered.ofSource source).steps hs.steps).steps hsteps
  have hle : s.position ≤ now.position := hordered.mark_le _ (by simp [hmarks])
  exact ⟨⟨_, rollback_of_marks hmarks, rfl, rfl, hbuffer⟩,
    ⟨_, commit_of_marks hmarks, Span.ofBounds?_eq_some_iff.mpr ⟨hle, rfl⟩, rfl, rfl, hbuffer,
      hordered.position_le⟩⟩

/-- Behind a mark and a symbol: a rule consumes another, sets a mark, goes past the end of the buffer
and fails, so that its mark has to be resolved by others. -/
theorem marks_bracket_of_failed_rule :
    ∃ (past : List (Scanner Char)) (now : Scanner Char),
      History (pushMark ⟨#['a'], .ofList ['b', 'c'], [0], 1, #[]⟩) past now ∧
        (∀ u ∈ past ++ [now], 2 ≤ u.depth) ∧ now.depth = 2 ∧ now.position = 2 ∧
        now.commit.1 = .ok ⟨1, 2⟩ ∧ now.rollback.2.position = 1 ∧ now.rollback.2.marks = [0] := by
  have hs : Reaches (ofSource (.ofList ['a', 'b', 'c']))
      (⟨#['a'], .ofList ['b', 'c'], [0], 1, #[]⟩ : Scanner Char) :=
    .step (.step (.step .refl (.pushMark _)) (.peek _)) (.advance _)
  have happly : (Rule.routine [.need, .advance, .mark, .advance] .last).apply .empty 1
      (pushMark (⟨#['a'], .ofList ['b', 'c'], [0], 1, #[]⟩ : Scanner Char)) =
        some (.failed (.advancePastBuffer 2), ⟨#['a', 'b'], .ofList ['c'], [2, 1, 0], 2, #[]⟩) := rfl
  have h := (History.start.of_apply happly).step (.rollback _)
  obtain ⟨⟨t, hback, hposition, hmarks, -⟩, u, hkeep, -⟩ := marks_bracket hs h (by decide) rfl
  exact ⟨_, _, h, by decide, rfl, rfl, congrArg Prod.fst hkeep, hback ▸ hposition, hback ▸ hmarks⟩

end Abnf.Scanner
