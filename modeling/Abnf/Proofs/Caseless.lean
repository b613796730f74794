import Abnf.Proofs.Adequacy
import Abnf.Proofs.Recoding

/-!
# Abnf.Proofs.Caseless — a match but for case is a match in lower case

The caseless rule compares the symbols in a loop of its own, and a literal is a concatenation of rules
for one symbol each.  Both look at the same symbols, set one mark and resolve it in the same way, so
that a literal, too, is a run of tests (`Rule.apply_literal`).  To compare two symbols but for their
case is to compare their lower-case forms; so the runs are the same if all symbols are in lower case.

* `Symbol.eq_of_lower_eq`: case is all that the lower-case forms do not tell.
* `Script.passed_of_acceptAll`: what a run of tests matched, passed them.
* `Rule.caseless_literal`: the rule against the literal, over any source.
-/

namespace Abnf

variable {ρ α : Type}

open Scanner

/-! ### Case -/

/-- The codes of ASCII letters. -/
def IsLetterCode (n : Nat) : Prop := (65 ≤ n ∧ n ≤ 90) ∨ (97 ≤ n ∧ n ≤ 122)

instance : DecidablePred IsLetterCode := fun n =>
  inferInstanceAs (Decidable ((65 ≤ n ∧ n ≤ 90) ∨ (97 ≤ n ∧ n ≤ 122)))

theorem lowerCode_of_not_letter {n : Nat} (h : ¬ IsLetterCode n) : lowerCode n = n := by
  unfold IsLetterCode at h
  unfold lowerCode
  split <;> omega

theorem not_letter_of_lowerCode {n : Nat} (h : ¬ IsLetterCode (lowerCode n)) : ¬ IsLetterCode n := by
  unfold IsLetterCode lowerCode at *
  split at h <;> omega

namespace Symbol

variable [Symbol α] {a b : α}

/-- Codes that are no letters' are told apart exactly. -/
theorem eq_of_lower_eq (h : lower a = lower b)
    (hletter : ¬ (IsLetterCode (code a) ∧ IsLetterCode (code b))) : a = b := by
  have hcodes : lowerCode (code a) = lowerCode (code b) := by
    rw [← code_lower, ← code_lower, h]
  refine code_inj ?_
  by_cases ha : IsLetterCode (code a)
  · have hb : ¬ IsLetterCode (code b) := fun hb => hletter ⟨ha, hb⟩
    rw [lowerCode_of_not_letter hb] at hcodes
    exact absurd ha (not_letter_of_lowerCode (by rwa [hcodes]))
  · rw [lowerCode_of_not_letter ha] at hcodes
    have hb : ¬ IsLetterCode (code b) := not_letter_of_lowerCode (by rwa [← hcodes])
    rwa [lowerCode_of_not_letter hb] at hcodes

end Symbol

/-! ### Runs of tests -/

namespace Script

variable {p : ρ → Scanner α → Option (Outcome × Scanner α)} {s t : Scanner α} {span : Span}

/-- A run that passes all its tests passes weaker ones alike. -/
theorem acceptAll_mono {tests tests' : List (α → Bool)}
    (h : List.Forall₂ (fun test test' => ∀ a, test a = true → test' a = true) tests tests') :
    (acceptAll tests : Script ρ α).run p s = some (.matched span, t) →
      (acceptAll tests' : Script ρ α).run p s = some (.matched span, t) := by
  induction h generalizing s with
  | nil => exact id
  | @cons test test' tests tests' htest _ ih =>
    intro hrun
    simp only [acceptAll, run] at hrun ⊢
    cases hc : s.peek.1 with
    | none =>
      rw [hc] at hrun
      exact absurd hrun not_matched_of_reject
    | some a =>
      rw [hc] at hrun
      dsimp only at hrun ⊢
      split at hrun
      · rename_i hpass
        rw [if_pos (htest a hpass)]
        simp only [run] at hrun ⊢
        cases hadv : s.peek.2.advance.1 with
        | ok first =>
          rw [hadv] at hrun
          exact ih hrun
        | error misuse =>
          rw [hadv] at hrun
          exact hrun
      · exact absurd hrun not_matched_of_reject

variable [Symbol α] {g : Grammar (Rule α)} {fuel : Nat}

/-- A run that passes all its tests matches from the latest mark on, and leaves in the buffer what
passed them. -/
theorem passed_of_acceptAll : ∀ (tests : List (α → Bool)) (u : Scanner α), u.Ordered →
    (acceptAll tests).run (Rule.apply g fuel) u = some (.matched span, t) →
    u.marks.head? = some span.start ∧
      ∀ i test, tests[i]? = some test → ∃ b, t.buffer[u.position + i]? = some b ∧ test b = true
  | [], u, _, hrun => by
    refine ⟨?_, by simp⟩
    cases hm : u.marks with
    | nil =>
      have hcommit : u.commit = (.error (.unbalancedMark .commit u.position), u) := by
        rw [Scanner.commit, hm]
      simp only [acceptAll, accept, run, hcommit] at hrun
      cases hrun
    | cons mark marks =>
      cases run_accept hm hrun
      rfl
  | test :: tests, u, hu, hrun => by
    simp only [acceptAll, run] at hrun
    cases hc : u.peek.1 with
    | none =>
      rw [hc] at hrun
      exact absurd hrun not_matched_of_reject
    | some a =>
      rw [hc] at hrun
      dsimp only at hrun
      split at hrun
      · rename_i hpass
        have hlt := position_lt_of_peek hu.position_le hc
        have hrest := hu.peek.advance
        simp only [run, advance_of_lt hlt, position_peek] at hrun hrest
        obtain ⟨hmark, hpassed⟩ := passed_of_acceptAll tests _ hrest hrun
        refine ⟨by simpa using hmark, fun i test' hi => ?_⟩
        cases i with
        | zero =>
          cases hi
          -- What is seen is buffered, and stays there through the rest of the run.
          have hsteps := steps_of_run (fun _ _ _ _ => Rule.steps_of_apply g) _ hrun
          have hseen : u.peek.2.buffer.toList[u.position]? = some a := by
            rw [Array.getElem?_toList]
            exact getElem?_of_peek hc
          obtain ⟨hlt', hget⟩ := List.getElem?_eq_some_iff.mp hseen
          refine ⟨a, ?_, hpass⟩
          rw [Nat.add_zero, ← Array.getElem?_toList, ← hget]
          exact List.prefix_iff_getElem?.mp (buffer_steps hsteps) _ hlt'
        | succ i =>
          obtain ⟨b, hb, htest⟩ := hpassed i test' hi
          exact ⟨b, by simpa [Nat.add_assoc, Nat.add_comm 1] using hb, htest⟩
      · exact absurd hrun not_matched_of_reject

end Script

namespace Rule

variable [Symbol α] {g : Grammar (Rule α)}

/-- A literal is a run of tests, too. -/
theorem apply_literal (g : Grammar (Rule α)) (expected : List α) (fuel : Nat) (s : Scanner α) :
    (literal expected).apply g (fuel + 2) s =
      (Script.acceptRun (expected.map Symbol.same)).run (apply g (fuel + 1)) s := by
  suffices h : ∀ u : Scanner α, (Script.applyAll (expected.map symbol)).run (apply g (fuel + 1)) u =
      (Script.acceptAll (expected.map Symbol.same)).run (apply g (fuel + 1)) u from h s.pushMark
  induction expected with
  | nil => exact fun _ => rfl
  | cons a rest ih =>
    intro u
    simp only [List.map_cons, Script.applyAll, Script.attempt, Script.acceptAll, Script.run,
      apply_succ, script, Script.acceptIf]
    cases u.peek.1 with
    | none => rfl
    | some b =>
      dsimp only
      by_cases hsame : Symbol.same a b = true
      · simp only [if_pos hsame, Script.consume, Script.run]
        cases u.peek.2.advance.1 with
        | ok span => exact ih _
        | error misuse => rfl
      · simp only [if_neg hsame]
        rfl

/-- In lower case, the literal does what the caseless rule does. -/
theorem apply_literal_lower (g : Grammar (Rule α)) (expected : List α) (fuel : Nat) (s : Scanner α) :
    (literal (expected.map Symbol.lower)).apply g (fuel + 2) (s.map Symbol.lower) =
      ((caseless expected).apply g (fuel + 2) s).map (Prod.map id (Scanner.map Symbol.lower)) := by
  have htests : List.Forall₂ (fun test test' => ∀ a, test' (Symbol.lower a) = test a)
      (expected.map Symbol.sameButCase) ((expected.map Symbol.lower).map Symbol.same) := by
    rw [List.map_map]
    exact forall₂_map_map fun _ _ _ => rfl
  -- No rule is applied on the way.
  have hrec : Script.Recoded Symbol.lower (fun _ _ => False)
      (Script.acceptRun (expected.map Symbol.sameButCase) : Script (Rule α) α)
      (Script.acceptRun ((expected.map Symbol.lower).map Symbol.same) : Script (Rule α) α) :=
    .mark (.acceptAll htests)
  rw [apply_literal]
  exact hrec.run (fun _ _ h => h.elim) s

/-- Where the literal matches, the caseless rule does the same. -/
theorem apply_caseless_of_literal {expected : List α} {fuel : Nat} {s t : Scanner α} {span : Span}
    (h : (literal expected).apply g fuel s = some (.matched span, t)) :
    (caseless expected).apply g (fuel + 2) s = some (.matched span, t) := by
  have hlit := apply_mono g (Nat.le_add_right fuel 2) _ _ _ h
  rw [apply_literal] at hlit
  refine Script.acceptAll_mono (forall₂_map_map fun a _ b hab => ?_) hlit
  rw [Symbol.same_iff.mp hab]
  exact Symbol.sameButCase_iff.mpr rfl

/-- **But for case is in lower case.**  Over any source, one that goes on after its end included, and
from any scanner in order, the caseless rule comes to what the literal in lower case comes to where all
symbols are in lower case: the outcome, the position, the marks and the reports are the same, and what
is buffered is the same in lower case.  Where the literal itself matches, the caseless rule does the
very same; and it matches symbols of which each is the one expected, or both are letters and differ in
case only. -/
theorem caseless_literal (g : Grammar (Rule α)) (expected : List α) {s : Scanner α}
    (hs : s.Ordered) :
    ∃ o t, (∀ fuel, (caseless expected).apply g (fuel + 1) s = some (o, t)) ∧
      (∀ fuel, (literal (expected.map Symbol.lower)).apply g (fuel + 2) (s.map Symbol.lower) =
        some (o, t.map Symbol.lower)) ∧
      (∀ fuel span u, (literal expected).apply g fuel s = some (.matched span, u) →
        o = .matched span ∧ t = u) ∧
      ∀ span, o = .matched span → ∀ i a, expected[i]? = some a →
        ∃ b, t.buffer[span.start + i]? = some b ∧ Symbol.lower b = Symbol.lower a ∧
          (¬ (IsLetterCode (Symbol.code a) ∧ IsLetterCode (Symbol.code b)) → b = a) := by
  have hdirect : (Script.acceptRun (expected.map Symbol.sameButCase) : Script (Rule α) α).Direct :=
    Script.direct_acceptAll _
  obtain ⟨⟨o, t⟩, hrun⟩ := hdirect.exists_run s
  have happly (fuel : Nat) : (caseless expected).apply g (fuel + 1) s = some (o, t) := hrun _
  refine ⟨o, t, happly, fun fuel => ?_, fun fuel span u hlit => ?_, ?_⟩
  · rw [apply_literal_lower, happly]
    rfl
  · cases (happly _).symm.trans (apply_caseless_of_literal hlit)
    exact ⟨rfl, rfl⟩
  · rintro ⟨start, stop⟩ rfl i a hi
    obtain ⟨hstart, hpassed⟩ := Script.passed_of_acceptAll _ _ hs.pushMark (happly 0)
    cases hstart
    obtain ⟨b, hb, htest⟩ := hpassed i (Symbol.sameButCase a) (by simp [hi])
    have hlower := Symbol.sameButCase_iff.mp htest
    exact ⟨b, hb, hlower.symm, fun h => (Symbol.eq_of_lower_eq hlower h).symm⟩

/-- An end of input between two symbols, the first of which is buffered: no match at first, and one
when the rule is applied again. -/
theorem caseless_literal_of_unfused_source :
    ∃ t u : Scanner Char,
      (caseless ['G', 'e', '-']).apply .empty 1
        ⟨#['g'], .ofItems [some 'E', none, some '-'], [0], 0, #[]⟩ = some (.noMatch, t) ∧
      (literal ['g', 'e', '-']).apply .empty 2
        ⟨#['g'], .ofItems [some 'e', none, some '-'], [0], 0, #[]⟩ =
          some (.noMatch, t.map Symbol.lower) ∧
      t.records = #[.rolledBack 2 0] ∧
      (caseless ['G', 'e', '-']).apply .empty 1 t = some (.matched ⟨0, 3⟩, u) ∧
      u.buffer[2]? = some '-' := by
  have hs : Scanner.Ordered
      (⟨#['g'], .ofItems [some 'E', none, some '-'], [0], 0, #[]⟩ : Scanner Char) :=
    ⟨by simp, by simp, by simp⟩
  obtain ⟨o, t, hc, hl, -⟩ := caseless_literal .empty ['G', 'e', '-'] hs
  have hfirst : (caseless ['G', 'e', '-']).apply .empty 1
      ⟨#['g'], .ofItems [some 'E', none, some '-'], [0], 0, #[]⟩ =
        some (.noMatch, ⟨#['g', 'E'], .ofItems [some '-'], [0], 0, #[.rolledBack 2 0]⟩) := rfl
  cases (hc 0).symm.trans hfirst
  obtain ⟨o', u, hc', -, -, hu⟩ := caseless_literal .empty ['G', 'e', '-']
    (hs.steps (steps_of_apply _ hfirst))
  have hsecond : (caseless ['G', 'e', '-']).apply .empty 1
      ⟨#['g', 'E'], .ofItems [some '-'], [0], 0, #[.rolledBack 2 0]⟩ =
        some (.matched ⟨0, 3⟩, ⟨#['g', 'E', '-'], ⟨[], []⟩, [0], 3, #[.rolledBack 2 0]⟩) := rfl
  cases (hc' 0).symm.trans hsecond
  obtain ⟨b, hb, -, hexact⟩ := hu _ rfl 2 '-' rfl
  cases hexact fun h => absurd h.1 (by decide)
  have hlower : (⟨#['g'], .ofItems [some 'E', none, some '-'], [0], 0, #[]⟩ : Scanner Char).map
      Symbol.lower = ⟨#['g'], .ofItems [some 'e', none, some '-'], [0], 0, #[]⟩ := by
    simp only [Scanner.map, List.map_toArray]
    rfl
  exact ⟨_, _, hfirst, hlower ▸ hl 0, rfl, hsecond, hb⟩

end Rule

end Abnf
