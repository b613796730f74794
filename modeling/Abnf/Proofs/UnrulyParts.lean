import Abnf.Proofs.Bracket
import Abnf.Rule.Routine

/-!
# Abnf.Proofs.UnrulyParts — concatenation and repetition contain what their parts do

The parts may consume symbols and not match, and they may answer any spans, on which a repetition
even depends for when to stop.  If only they leave the marks as they found them, the mark that the
combinator set is still the latest one when it is resolved, and the order of marks and position puts
it where the combinator began or before.

* `Script.Resolves`: a script's own marks are there when it resolves them.
* `Script.sequence_resolves`, `.repetition_resolves`: on all ways out of the combinators.
* `Rule.unruly_parts`: outcomes, positions and marks as well.
-/

namespace Abnf

variable {ρ α : Type}

open Scanner

namespace Script

/-- Wherever the run of a script gets to, its own rollbacks and commits find a mark, and the ends of
the span that a commit answers are in order.  What goes on in the rules that it applies is left out. -/
def Resolves (applyRule : ρ → Scanner α → Option (Outcome × Scanner α)) :
    Script ρ α → Scanner α → Prop
  | .answer _, _ => True
  | .peek next, s => (next s.peek.1).Resolves applyRule s.peek.2
  | .advance next, s => (next s.advance.1).Resolves applyRule s.advance.2
  | .mark next, s => next.Resolves applyRule s.pushMark
  | .rollback next, s => s.rollback.1 = .ok () ∧ (next s.rollback.1).Resolves applyRule s.rollback.2
  | .commit next, s =>
    (∃ span, s.commit.1 = .ok span ∧ Span.ofBounds? span.start span.stop = some span) ∧
      (next s.commit.1).Resolves applyRule s.commit.2
  | .inspect next, s => (next s.view).Resolves applyRule s
  | .report record next, s => next.Resolves applyRule (s.report record)
  | .apply rule next, s => ∀ o t, applyRule rule s = some (o, t) → (next o).Resolves applyRule t
  | .unfinished, _ => True

variable {applyRule : ρ → Scanner α → Option (Outcome × Scanner α)} {E : Misuse → Prop}
  {s u : Scanner α}

theorem attempt_resolves {rule : ρ} {onMatch : Span → Script ρ α} {onNoMatch : Script ρ α}
    (hmatch : ∀ span t, applyRule rule u = some (.matched span, t) →
      (onMatch span).Resolves applyRule t)
    (hnoMatch : ∀ t, applyRule rule u = some (.noMatch, t) → onNoMatch.Resolves applyRule t) :
    (attempt rule onMatch onNoMatch).Resolves applyRule u := by
  intro o t h
  cases o with
  | matched span => exact hmatch span t h
  | noMatch => exact hnoMatch t h
  | failed misuse => exact trivial

theorem reject_resolves (hu : Within s u) : (reject : Script ρ α).Resolves applyRule u := by
  simp only [reject, Resolves, rollback_of_marks hu.marks, true_and]

section Ordered

variable (hs : s.Ordered)
include hs

theorem accept_resolves (hu : Within s u) : (accept : Script ρ α).Resolves applyRule u := by
  have hspan : Span.ofBounds? s.position u.position = some ⟨s.position, u.position⟩ :=
    Span.ofBounds?_eq_some_iff.mpr ⟨hu.position_le hs, rfl⟩
  simp only [accept, Resolves, commit_of_marks hu.marks, and_true]
  exact ⟨_, rfl, hspan⟩

theorem endRounds_resolves {bounds : Bounds} {count : Nat} (hu : Within s u) :
    (endRounds bounds count : Script ρ α).Resolves applyRule u := by
  unfold endRounds
  split
  · exact reject_resolves (hu.trans (.single (.report u _)) rfl)
  · exact accept_resolves hs hu

variable (ha : ∀ r s o t, applyRule r s = some (o, t) → Steps s t)
include ha

theorem applyAll_resolves : ∀ (rules : List ρ) (u : Scanner α),
    (∀ r ∈ rules, KeepsMarks applyRule E r) → Within s u → (applyAll rules).Resolves applyRule u
  | [], u, _, hu => accept_resolves hs hu
  | rule :: rest, u, hr, hu => by
    have hfirst := hr rule (by simp)
    refine attempt_resolves (fun span t ht => ?_) fun t ht => ?_
    · exact applyAll_resolves rest t (fun r h => hr r (by simp [h]))
        (hu.apply ha hs hfirst ht (by simp))
    · exact reject_resolves (hu.apply ha hs hfirst ht (by simp))

theorem sequence_resolves {rules : List ρ} (hr : ∀ r ∈ rules, KeepsMarks applyRule E r) :
    (sequence rules).Resolves applyRule s :=
  applyAll_resolves hs ha rules s.pushMark hr (within_pushMark s)

theorem rounds_resolves {bounds : Bounds} {rule : ρ} (hr : KeepsMarks applyRule E rule) :
    ∀ (fuel count : Nat) (u : Scanner α), Within s u →
      (rounds bounds rule fuel count).Resolves applyRule u
  | 0, _, _, _ => trivial
  | fuel + 1, count, u, hu => by
    unfold rounds
    split
    · refine attempt_resolves (fun span t ht => ?_) fun t ht => ?_
      · have ht := hu.apply ha hs hr ht (by simp)
        split
        · exact endRounds_resolves hs ht
        · exact rounds_resolves hr fuel (count + 1) t ht
      · exact endRounds_resolves hs (hu.apply ha hs hr ht (by simp))
    · exact endRounds_resolves hs hu

theorem repetition_resolves {fuel : Nat} {bounds : Bounds} {rule : ρ}
    (hr : KeepsMarks applyRule E rule) : (repetition fuel bounds rule).Resolves applyRule s := by
  unfold repetition
  split
  · exact rounds_resolves hs ha hr fuel 0 s.pushMark (within_pushMark s)
  · exact trivial

end Ordered

end Script

namespace Rule

variable [Symbol α] {g : Grammar (Rule α)} {rule : Rule α} {rules : List (Rule α)} {s : Scanner α}

/-- Unless it fails, the rule leaves the marks as it found them.  It may move the position anywhere
and answer anything. -/
def LeavesMarks (g : Grammar (Rule α)) (rule : Rule α) : Prop :=
  ∀ (fuel : Nat) (s : Scanner α) (o : Outcome) (t : Scanner α), s.Ordered →
    rule.apply g fuel s = some (o, t) → (∀ misuse, o ≠ .failed misuse) → t.marks = s.marks

/-- One of the rules fails with this somewhere. -/
def PartFails (g : Grammar (Rule α)) (rules : List (Rule α)) (misuse : Misuse) : Prop :=
  ∃ r ∈ rules, ∃ (fuel : Nat) (u v : Scanner α), u.Ordered ∧
    r.apply g fuel u = some (.failed misuse, v)

theorem LeavesMarks.keepsMarks {r : Rule α} (h : LeavesMarks g r) (hr : r ∈ rules) (fuel : Nat) :
    Script.KeepsMarks (apply g fuel) (PartFails g rules) r := by
  intro u o v hu hv
  refine ⟨h fuel u o v hu hv, ?_⟩
  cases o with
  | matched | noMatch => exact trivial
  | failed misuse => exact ⟨r, hr, fuel, u, v, hu, hv⟩

/-- The rule applied to `s` makes good what its parts may do: without a match the scanner is where it
was, a match is of what lies between the old position and the new one, the marks are as before, only
a part's failure makes it fail, and it resolves its own mark whatever the parts answer. -/
structure ContainsParts (g : Grammar (Rule α)) (parts : List (Rule α)) (s : Scanner α) (rule : Rule α) :
    Prop where
  noMatch : ∀ {fuel t}, rule.apply g fuel s = some (.noMatch, t) →
    t.position = s.position ∧ t.marks = s.marks
  matched : ∀ {fuel span t}, rule.apply g fuel s = some (.matched span, t) →
    t.marks = s.marks ∧ span = ⟨s.position, t.position⟩ ∧ span.start ≤ span.stop
  failed : ∀ {fuel misuse t}, rule.apply g fuel s = some (.failed misuse, t) → PartFails g parts misuse
  resolves : ∀ fuel, (rule.script g fuel).Resolves (apply g fuel) s

theorem contains_of_contract
    (hcontract : ∀ fuel o t, (rule.script g fuel).run (apply g fuel) s = some (o, t) →
      Contract s o t ∧ o.FailsIn (PartFails g rules))
    (hresolves : ∀ fuel, (rule.script g fuel).Resolves (apply g fuel) s) :
    ContainsParts g rules s rule := by
  have happly : ∀ fuel o t, rule.apply g fuel s = some (o, t) →
      Contract s o t ∧ o.FailsIn (PartFails g rules) := by
    rintro (_ | fuel) o t h
    · cases h
    · exact hcontract fuel o t h
  refine ⟨fun h => ?_, fun h => ?_, fun h => (happly _ _ _ h).2, hresolves⟩
  · obtain ⟨hposition, hmarks, -⟩ := (happly _ _ _ h).1
    exact ⟨hposition, hmarks⟩
  · have hc := (happly _ _ _ h).1
    exact ⟨hc.1, hc.span_eq, hc.2.2.2.1⟩

/-- **Unruly parts are contained.**  Whatever the source does, concatenation and repetition of rules
that leave the marks alone keep the scanner in order: they go back all the way or match exactly what
lies behind, and the rollbacks and commits in them never fail. -/
theorem unruly_parts (hs : s.Ordered) :
    (∀ rules : List (Rule α), (∀ r ∈ rules, LeavesMarks g r) →
        ContainsParts g rules s (.concat rules)) ∧
      ∀ (b : Bounds) (r : Rule α), LeavesMarks g r → ContainsParts g [r] s (.repetition b r) := by
  have ha : ∀ fuel r s o t, apply g fuel r s = some (o, t) → Steps s t :=
    fun _ _ _ _ _ => steps_of_apply g
  refine ⟨fun rules hr => ?_, fun b r hr => ?_⟩
  · have hkeeps : ∀ fuel, ∀ r ∈ rules, Script.KeepsMarks (apply g fuel) (PartFails g rules) r :=
      fun fuel r hmem => (hr r hmem).keepsMarks hmem fuel
    exact contains_of_contract
      (fun fuel _ _ h => Script.sequence_contract (ha fuel) hs (hkeeps fuel) h)
      fun fuel => Script.sequence_resolves hs (ha fuel) (hkeeps fuel)
  · have hkeeps : ∀ fuel, Script.KeepsMarks (apply g fuel) (PartFails g [r]) r :=
      fun fuel => hr.keepsMarks (by simp) fuel
    exact contains_of_contract
      (fun fuel _ _ h => Script.repetition_contract (ha fuel) hs (hkeeps fuel) h)
      fun fuel => Script.repetition_resolves hs (ha fuel) (hkeeps fuel)

/-- Parts that consume a symbol and then answer a span out of order, or of nothing, or no match, over
a source that ends twice. -/
theorem unruly_parts_of_routines :
    (∃ t : Scanner Char,
        (concat [routine [.need, .advance] (.given ⟨7, 3⟩), routine [.need, .advance] .noMatch]).apply
            .empty 2 ⟨#['a', 'b', 'c'], .ofItems [none, some 'd'], [1, 0], 1, #[]⟩ =
          some (.noMatch, t) ∧
        t.position = 1 ∧ t.marks = [1, 0]) ∧
      ∃ t : Scanner Char,
        (Rule.repetition (.atLeast 2) (routine [.need, .advance] (.given ⟨9, 9⟩))).apply
            .empty 2 ⟨#['a', 'b', 'c'], .ofItems [none, some 'd'], [1, 0], 1, #[]⟩ =
          some (.matched ⟨1, 2⟩, t) ∧
        t.marks = [1, 0] ∧ t.position = 2 := by
  have hs : Ordered (⟨#['a', 'b', 'c'], .ofItems [none, some 'd'], [1, 0], 1, #[]⟩ : Scanner Char) :=
    ⟨by simp, by simp, by simp⟩
  have hpart : ∀ reply, LeavesMarks .empty (routine [.need, .advance] reply : Rule Char) := by
    rintro reply (_ | fuel) s o t - h ho
    · cases h
    · rw [← marks_peek s, ← marks_advance s.peek.2]
      simp only [routine, apply_succ, script, Instruction.script, Script.run] at h
      cases hc : s.peek.1 <;> simp only [hc, Script.run] at h
      · cases h
        rw [marks_advance]
      · cases hadv : s.peek.2.advance.1 <;> simp only [hadv, Script.run] at h
        · cases h
          exact absurd rfl (ho _)
        · cases reply <;> cases h <;> rfl
  have hconcat : (concat [routine [.need, .advance] (.given ⟨7, 3⟩),
      routine [.need, .advance] .noMatch]).apply .empty 2
      ⟨#['a', 'b', 'c'], .ofItems [none, some 'd'], [1, 0], 1, #[]⟩ =
      some (.noMatch, ⟨#['a', 'b', 'c'], .ofItems [none, some 'd'], [1, 0], 1, #[.rolledBack 3 1]⟩) :=
    rfl
  have hrepeated : (Rule.repetition (.atLeast 2) (routine [.need, .advance] (.given ⟨9, 9⟩))).apply
      .empty 2 ⟨#['a', 'b', 'c'], .ofItems [none, some 'd'], [1, 0], 1, #[]⟩ =
      some (.matched ⟨1, 2⟩, ⟨#['a', 'b', 'c'], .ofItems [none, some 'd'], [1, 0], 2, #[]⟩) := rfl
  obtain ⟨hconcats, hrepetitions⟩ := unruly_parts (g := .empty) hs
  refine ⟨⟨_, hconcat, (hconcats _ ?_).noMatch hconcat⟩, ⟨_, hrepeated, ?_, rfl⟩⟩
  · simpa using ⟨hpart (.given ⟨7, 3⟩), hpart .noMatch⟩
  · exact ((hrepetitions (.atLeast 2) _ (hpart (.given ⟨9, 9⟩))).matched hrepeated).1

end Rule

end Abnf
