import Abnf.Proofs.Order
import Abnf.Script.Combinator

/-!
# Abnf.Proofs.Bracket — what the combinators make of their sub-rules

`Contract s o t` is what an application from `s` that ends in `t` owes for its outcome `o`.  The
combinators that set a mark need little for it: of sub-rules that leave the marks alone they make one
that also keeps to the position and answers its own span (`sequence_contract`,
`repetition_contract`).  Choice and option set no mark and hand on what their sub-rules keep
(`choice_contract`, `optional_contract`).  No combinator fails unless a sub-rule does.
-/

namespace Abnf

variable {ρ α : Type}

open Scanner

/-- Failures are of the kind `E`. -/
def Outcome.FailsIn (E : Misuse → Prop) : Outcome → Prop
  | .failed misuse => E misuse
  | .matched _ | .noMatch => True

/-- What an application from `s` to `t` owes for its outcome.  Without a match it has consumed
nothing; a match goes from the old position to the new one; the marks are as before, and what was
buffered still is. -/
def Contract (s : Scanner α) : Outcome → Scanner α → Prop
  | .noMatch, t =>
    t.position = s.position ∧ t.marks = s.marks ∧ s.buffer.toList <+: t.buffer.toList
  | .matched span, t =>
    t.marks = s.marks ∧ span.start = s.position ∧ span.stop = t.position ∧
      span.start ≤ span.stop ∧ span.stop ≤ t.buffer.size ∧ s.buffer.toList <+: t.buffer.toList
  | .failed _, _ => True

theorem contract_noMatch {s t : Scanner α} (h : Steps s t) (hp : t.position = s.position)
    (hm : t.marks = s.marks) : Contract s .noMatch t :=
  ⟨hp, hm, buffer_steps h⟩

theorem contract_matched {s t : Scanner α} (hs : s.Ordered) (h : Steps s t)
    (hm : t.marks = s.marks) (hp : s.position ≤ t.position) :
    Contract s (.matched ⟨s.position, t.position⟩) t :=
  ⟨hm, rfl, rfl, hp, (hs.steps h).position_le, buffer_steps h⟩

theorem Contract.marks_eq {s t : Scanner α} {o : Outcome} (h : Contract s o t)
    (ho : ∀ m, o ≠ .failed m) : t.marks = s.marks := by
  cases o with
  | matched span => exact h.1
  | noMatch => exact h.2.1
  | failed m => exact absurd rfl (ho m)

theorem Contract.span_eq {s t : Scanner α} {span : Span} (h : Contract s (.matched span) t) :
    span = ⟨s.position, t.position⟩ := by
  obtain ⟨-, hstart, hstop, -⟩ := h
  rw [← hstart, ← hstop]

theorem Contract.position_le {s t : Scanner α} {span : Span} (h : Contract s (.matched span) t) :
    s.position ≤ t.position := by
  have hle := h.2.2.2.1
  rwa [h.span_eq] at hle

/-- What is owed after an application without a match is owed from before it. -/
theorem Contract.of_noMatch {s t u : Scanner α} {o : Outcome} (hu : Contract s .noMatch u)
    (h : Contract u o t) : Contract s o t := by
  obtain ⟨hp, hm, hb⟩ := hu
  cases o with
  | matched span =>
    obtain ⟨hm', hstart, hstop, hle, hsize, hb'⟩ := h
    exact ⟨hm'.trans hm, hstart.trans hp, hstop, hle, hsize, hb.trans hb'⟩
  | noMatch =>
    obtain ⟨hp', hm', hb'⟩ := h
    exact ⟨hp'.trans hp, hm'.trans hm, hb.trans hb'⟩
  | failed m => exact trivial

namespace Script

variable {applyRule : ρ → Scanner α → Option (Outcome × Scanner α)} {E : Misuse → Prop}
  {s t u : Scanner α} {o : Outcome}

/-! ### Runs taken apart -/

/-- What an attempt comes to is decided by the application in it. -/
theorem run_attempt {rule : ρ} {onMatch : Span → Script ρ α} {onNoMatch : Script ρ α}
    (h : (attempt rule onMatch onNoMatch).run applyRule s = some (o, t)) :
    ∃ u, (∃ span, applyRule rule s = some (.matched span, u) ∧
        (onMatch span).run applyRule u = some (o, t)) ∨
      (applyRule rule s = some (.noMatch, u) ∧ onNoMatch.run applyRule u = some (o, t)) ∨
      ∃ m, applyRule rule s = some (.failed m, u) ∧ o = .failed m ∧ t = u := by
  simp only [attempt, run] at h
  cases ha : applyRule rule s with
  | none => simp [ha] at h
  | some x =>
    obtain ⟨outcome, u⟩ := x
    rw [ha] at h
    refine ⟨u, ?_⟩
    cases outcome with
    | matched span => exact .inl ⟨span, rfl, h⟩
    | noMatch => exact .inr (.inl ⟨rfl, h⟩)
    | failed m =>
      cases h
      exact .inr (.inr ⟨m, rfl, rfl, rfl⟩)

/-- A sub-rule that leaves the marks as they were unless it fails, and fails only in `E`. -/
def KeepsMarks (applyRule : ρ → Scanner α → Option (Outcome × Scanner α)) (E : Misuse → Prop)
    (r : ρ) : Prop :=
  ∀ s o t, s.Ordered → applyRule r s = some (o, t) →
    ((∀ m, o ≠ .failed m) → t.marks = s.marks) ∧ o.FailsIn E

/-- A sub-rule that keeps the whole contract, and fails only in `E`. -/
def KeepsContract (applyRule : ρ → Scanner α → Option (Outcome × Scanner α)) (E : Misuse → Prop)
    (r : ρ) : Prop :=
  ∀ s o t, s.Ordered → applyRule r s = some (o, t) → Contract s o t ∧ o.FailsIn E

theorem KeepsContract.keepsMarks {r : ρ} (h : KeepsContract applyRule E r) :
    KeepsMarks applyRule E r := fun s o t hs hr => ⟨(h s o t hs hr).1.marks_eq, (h s o t hs hr).2⟩

/-- A scanner on the way from `s`, with one more mark, at the position of `s`. -/
structure Within (s u : Scanner α) : Prop where
  steps : Steps s u
  marks : u.marks = s.position :: s.marks

theorem within_pushMark (s : Scanner α) : Within s s.pushMark := ⟨.single (.pushMark s), rfl⟩

theorem Within.trans {v : Scanner α} (h : Within s u) (hsteps : Steps u v)
    (hm : v.marks = u.marks) : Within s v :=
  ⟨h.steps.trans hsteps, hm.trans h.marks⟩

theorem Within.position_le (h : Within s u) (hs : s.Ordered) : s.position ≤ u.position :=
  (hs.steps h.steps).mark_le _ (by simp [h.marks])

section Bracketed

variable (ha : ∀ r s o t, applyRule r s = some (o, t) → Steps s t) (hs : s.Ordered)
include ha hs

/-- An application that does not fail stays behind the mark. -/
theorem Within.apply {r : ρ} {v : Scanner α} (hr : KeepsMarks applyRule E r) (hu : Within s u)
    (hv : applyRule r u = some (o, v)) (ho : ∀ m, o ≠ .failed m) : Within s v :=
  hu.trans (ha _ _ _ _ hv) ((hr _ _ _ (hs.steps hu.steps) hv).1 ho)

/-! ### Combinators that set a mark -/

theorem accept_contract (hu : Within s u) (h : (accept : Script ρ α).run applyRule u = some (o, t)) :
    Contract s o t ∧ o.FailsIn E := by
  have hsteps : Steps s t := hu.steps.trans (steps_of_run ha _ h)
  simp only [accept, run, commit_of_marks hu.marks] at h
  cases h
  exact ⟨contract_matched hs hsteps rfl (hu.position_le hs), trivial⟩

omit hs in
theorem reject_contract (hu : Within s u) (h : (reject : Script ρ α).run applyRule u = some (o, t)) :
    Contract s o t ∧ o.FailsIn E := by
  have hsteps : Steps s t := hu.steps.trans (steps_of_run ha _ h)
  simp only [reject, run, rollback_of_marks hu.marks] at h
  cases h
  exact ⟨contract_noMatch hsteps rfl rfl, trivial⟩

theorem acceptAll_contract : ∀ (tests : List (α → Bool)) (u : Scanner α), Within s u →
    (acceptAll tests : Script ρ α).run applyRule u = some (o, t) → Contract s o t ∧ o.FailsIn E
  | [], u, hu, h => accept_contract ha hs hu h
  | test :: rest, u, hu, h => by
    have hpeek : Within s u.peek.2 := hu.trans (.single (.peek u)) (marks_peek u)
    simp only [acceptAll, run] at h
    cases hc : u.peek.1 with
    | none =>
      rw [hc] at h
      exact reject_contract ha hpeek h
    | some a =>
      rw [hc] at h
      dsimp only at h
      split at h
      · have hlt := position_lt_of_peek (hs.steps hu.steps).position_le hc
        have hadv : Within s u.peek.2.advance.2 :=
          hpeek.trans (.single (.advance _)) (marks_advance _)
        simp only [run, advance_of_lt hlt] at h hadv
        exact acceptAll_contract rest _ hadv h
      · exact reject_contract ha hpeek h

theorem acceptRun_contract {tests : List (α → Bool)}
    (h : (acceptRun tests : Script ρ α).run applyRule s = some (o, t)) :
    Contract s o t ∧ o.FailsIn E :=
  acceptAll_contract ha hs tests _ (within_pushMark s) h

theorem applyAll_contract : ∀ (rules : List ρ) (u : Scanner α),
    (∀ r ∈ rules, KeepsMarks applyRule E r) → Within s u →
    (applyAll rules).run applyRule u = some (o, t) → Contract s o t ∧ o.FailsIn E
  | [], u, _, hu, h => accept_contract ha hs hu h
  | rule :: rest, u, hr, hu, h => by
    obtain ⟨v, ⟨span, hv, h⟩ | ⟨hv, h⟩ | ⟨m, hv, rfl, rfl⟩⟩ := run_attempt h
    · have hwithin : Within s v := hu.apply ha hs (hr rule (by simp)) hv (by simp)
      exact applyAll_contract rest v (fun r h => hr r (by simp [h])) hwithin h
    · exact reject_contract ha (hu.apply ha hs (hr rule (by simp)) hv (by simp)) h
    · exact ⟨trivial, (hr rule (by simp) _ _ _ (hs.steps hu.steps) hv).2⟩

/-- **Concatenation makes the contract** of sub-rules that need not consume what they answer, nor
give back what they consumed, as long as they leave the marks alone. -/
theorem sequence_contract {rules : List ρ} (hr : ∀ r ∈ rules, KeepsMarks applyRule E r)
    (h : (sequence rules).run applyRule s = some (o, t)) : Contract s o t ∧ o.FailsIn E :=
  applyAll_contract ha hs rules _ hr (within_pushMark s) h

theorem endRounds_contract {bounds : Bounds} {count : Nat} (hu : Within s u)
    (h : (endRounds bounds count : Script ρ α).run applyRule u = some (o, t)) :
    Contract s o t ∧ o.FailsIn E := by
  unfold endRounds at h
  split at h
  · exact reject_contract ha (hu.trans (.single (.report u _)) rfl) h
  · exact accept_contract ha hs hu h

theorem rounds_contract {bounds : Bounds} {rule : ρ} (hr : KeepsMarks applyRule E rule) :
    ∀ (fuel count : Nat) (u : Scanner α), Within s u →
      (rounds bounds rule fuel count).run applyRule u = some (o, t) → Contract s o t ∧ o.FailsIn E
  | 0, _, _, _, h => nomatch h
  | fuel + 1, count, u, hu, h => by
    simp only [rounds] at h
    split at h
    · obtain ⟨v, ⟨span, hv, h⟩ | ⟨hv, h⟩ | ⟨m, hv, rfl, rfl⟩⟩ := run_attempt h
      · have hwithin : Within s v := hu.apply ha hs hr hv (by simp)
        split at h
        · exact endRounds_contract ha hs hwithin h
        · exact rounds_contract hr fuel _ v hwithin h
      · exact endRounds_contract ha hs (hu.apply ha hs hr hv (by simp)) h
      · exact ⟨trivial, (hr _ _ _ (hs.steps hu.steps) hv).2⟩
    · exact endRounds_contract ha hs hu h

/-- **Repetition makes the contract** of a sub-rule that leaves the marks alone, by whichever way it
ends. -/
theorem repetition_contract {fuel : Nat} {bounds : Bounds} {rule : ρ}
    (hr : KeepsMarks applyRule E rule)
    (h : (repetition fuel bounds rule).run applyRule s = some (o, t)) :
    Contract s o t ∧ o.FailsIn E := by
  unfold repetition at h
  split at h
  · exact rounds_contract ha hs hr fuel 0 _ (within_pushMark s) h
  · cases h
    exact ⟨contract_noMatch .refl rfl rfl, trivial⟩

/-! ### Combinators that set none -/

theorem acceptIf_contract {test : α → Bool}
    (h : (acceptIf test : Script ρ α).run applyRule s = some (o, t)) :
    Contract s o t ∧ o.FailsIn E := by
  have hsteps : Steps s t := steps_of_run ha _ h
  have hpeek : Contract s .noMatch s.peek.2 :=
    contract_noMatch (.single (.peek s)) (position_peek s) (marks_peek s)
  simp only [acceptIf, run] at h
  cases hc : s.peek.1 with
  | none =>
    rw [hc] at h
    cases h
    exact ⟨hpeek, trivial⟩
  | some a =>
    rw [hc] at h
    dsimp only at h
    split at h
    · have hlt := position_lt_of_peek hs.position_le hc
      simp only [consume, run, advance_of_lt hlt, position_peek] at h
      cases h
      exact ⟨contract_matched hs hsteps (marks_peek s) (Nat.le_succ _), trivial⟩
    · cases h
      exact ⟨hpeek, trivial⟩

theorem endOfInput_contract (h : (endOfInput : Script ρ α).run applyRule s = some (o, t)) :
    Contract s o t ∧ o.FailsIn E := by
  have hsteps : Steps s t := steps_of_run ha _ h
  simp only [endOfInput, run] at h
  cases hc : s.peek.1 with
  | none =>
    rw [hc] at h
    cases h
    have hmatch := contract_matched hs hsteps (marks_peek s) (position_peek s).ge
    exact ⟨by simpa [Span.empty, view] using hmatch, trivial⟩
  | some a =>
    rw [hc] at h
    cases h
    exact ⟨contract_noMatch hsteps (position_peek s) (marks_peek s), trivial⟩

omit hs in
theorem choice_contract : ∀ (rules : List ρ) (s : Scanner α), s.Ordered →
    (∀ r ∈ rules, KeepsContract applyRule E r) → (choice rules).run applyRule s = some (o, t) →
    Contract s o t ∧ o.FailsIn E
  | [], s, _, _, h => by
    cases h
    exact ⟨contract_noMatch .refl rfl rfl, trivial⟩
  | rule :: rest, s, hs, hr, h => by
    have hfirst := hr rule (by simp)
    obtain ⟨v, ⟨span, hv, h⟩ | ⟨hv, h⟩ | ⟨m, hv, rfl, rfl⟩⟩ := run_attempt h
    · cases h
      exact hfirst _ _ _ hs hv
    · have hv' := (hfirst _ _ _ hs hv).1
      obtain ⟨hrest, hfails⟩ :=
        choice_contract rest v (hs.steps (ha _ _ _ _ hv)) (fun r h => hr r (by simp [h])) h
      exact ⟨hv'.of_noMatch hrest, hfails⟩
    · exact hfirst _ _ _ hs hv

theorem optional_contract {rule : ρ} (hr : KeepsContract applyRule E rule)
    (h : (optional rule).run applyRule s = some (o, t)) : Contract s o t ∧ o.FailsIn E := by
  simp only [optional, run] at h
  obtain ⟨v, ⟨span, hv, h⟩ | ⟨hv, h⟩ | ⟨m, hv, rfl, rfl⟩⟩ := run_attempt h
  · cases h
    exact hr _ _ _ hs hv
  · cases h
    obtain ⟨hp, hm, -⟩ := (hr _ _ _ hs hv).1
    have hmatch := contract_matched hs (ha _ _ _ _ hv) hm hp.ge
    exact ⟨by simpa [Span.empty, view, hp] using hmatch, trivial⟩
  · exact hr _ _ _ hs hv

end Bracketed

end Script

end Abnf
