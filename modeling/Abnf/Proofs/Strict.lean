import Abnf.Proofs.Contract

/-!
# Abnf.Proofs.Strict — combinators hand failures on at once

`Script.Direct` says of a script that it applies no rule, and `Script.Strict P` that it applies only
rules that satisfy `P` and ends with the failure of any of them as soon as there is one.  All rules but
custom ones have strict scripts (`Rule.script_strict_uses`); a custom script may go on after a failure.

`Script.calls` lists the applications that a run makes.  In a strict script one that fails is the last
(`Script.Strict.getLast?_calls`).
-/

namespace Abnf

variable {ρ α : Type}

namespace Script

/-! ### Scripts that apply no rule -/

/-- Applies no rule. -/
def Direct : Script ρ α → Prop
  | .answer _ => True
  | .peek next => ∀ symbol?, (next symbol?).Direct
  | .advance next => ∀ result, (next result).Direct
  | .mark next => next.Direct
  | .rollback next => ∀ result, (next result).Direct
  | .commit next => ∀ result, (next result).Direct
  | .inspect next => ∀ view, (next view).Direct
  | .report _ next => next.Direct
  | .apply _ _ => False
  | .unfinished => False

theorem direct_accept : (accept : Script ρ α).Direct := by
  rintro (misuse | span) <;> exact trivial

theorem direct_reject : (reject : Script ρ α).Direct := by
  rintro (misuse | _) <;> exact trivial

theorem direct_acceptIf (test : α → Bool) : (acceptIf test : Script ρ α).Direct := by
  rintro (_ | a)
  · exact trivial
  · dsimp only
    split
    · rintro (misuse | span) <;> exact trivial
    · exact trivial

theorem direct_endOfInput : (endOfInput : Script ρ α).Direct := by
  rintro (_ | a)
  · exact fun _ => trivial
  · exact trivial

theorem direct_acceptAll (tests : List (α → Bool)) : (acceptAll tests : Script ρ α).Direct := by
  induction tests with
  | nil => exact direct_accept
  | cons test rest ih =>
    rintro (_ | a)
    · exact direct_reject
    · dsimp only
      split
      · rintro (misuse | span)
        · exact trivial
        · exact ih
      · exact direct_reject

theorem direct_endRounds (b : Bounds) (count : Nat) : (endRounds b count : Script ρ α).Direct := by
  unfold endRounds
  split
  · exact fun _ => direct_reject
  · exact direct_accept

/-! ### Scripts that end with the first failure -/

variable {P : ρ → Prop}

/-- Applies only rules that satisfy `P`, and ends with the failure of the first that fails. -/
def Strict (P : ρ → Prop) : Script ρ α → Prop
  | .answer _ => True
  | .peek next => ∀ symbol?, (next symbol?).Strict P
  | .advance next => ∀ result, (next result).Strict P
  | .mark next => next.Strict P
  | .rollback next => ∀ result, (next result).Strict P
  | .commit next => ∀ result, (next result).Strict P
  | .inspect next => ∀ view, (next view).Strict P
  | .report _ next => next.Strict P
  | .apply rule next =>
    P rule ∧ (∀ m, next (.failed m) = .answer (.failed m)) ∧ ∀ outcome, (next outcome).Strict P
  | .unfinished => True

theorem Direct.strict {c : Script ρ α} (h : c.Direct) : c.Strict P := by
  induction c with
  | answer outcome => exact trivial
  | peek next ih => exact fun a => ih a (h a)
  | advance next ih => exact fun r => ih r (h r)
  | mark next ih => exact ih h
  | rollback next ih => exact fun r => ih r (h r)
  | commit next ih => exact fun r => ih r (h r)
  | inspect next ih => exact fun v => ih v (h v)
  | report record next ih => exact ih h
  | apply rule next => exact h.elim
  | unfinished => exact h.elim

theorem Strict.mono {Q : ρ → Prop} {c : Script ρ α} (h : c.Strict P) (hPQ : ∀ r, P r → Q r) :
    c.Strict Q := by
  induction c with
  | answer outcome => exact trivial
  | peek next ih => exact fun a => ih a (h a)
  | advance next ih => exact fun r => ih r (h r)
  | mark next ih => exact ih h
  | rollback next ih => exact fun r => ih r (h r)
  | commit next ih => exact fun r => ih r (h r)
  | inspect next ih => exact fun v => ih v (h v)
  | report record next ih => exact ih h
  | apply rule next ih => exact ⟨hPQ rule h.1, h.2.1, fun outcome => ih outcome (h.2.2 outcome)⟩
  | unfinished => exact trivial

theorem strict_attempt {rule : ρ} {onMatch : Span → Script ρ α} {onNoMatch : Script ρ α}
    (hrule : P rule) (hmatch : ∀ span, (onMatch span).Strict P) (hnoMatch : onNoMatch.Strict P) :
    (attempt rule onMatch onNoMatch).Strict P := by
  refine ⟨hrule, fun _ => rfl, ?_⟩
  rintro (span | _ | m)
  · exact hmatch span
  · exact hnoMatch
  · exact trivial

theorem strict_sequence {rules : List ρ} (h : ∀ r ∈ rules, P r) :
    (sequence rules : Script ρ α).Strict P := by
  show (applyAll rules).Strict P
  induction rules with
  | nil => exact direct_accept.strict
  | cons rule rest ih =>
    exact strict_attempt (h rule (by simp)) (fun _ => ih fun r hr => h r (by simp [hr]))
      direct_reject.strict

theorem strict_choice {rules : List ρ} (h : ∀ r ∈ rules, P r) :
    (choice rules : Script ρ α).Strict P := by
  induction rules with
  | nil => exact trivial
  | cons rule rest ih =>
    exact strict_attempt (h rule (by simp)) (fun _ => trivial) (ih fun r hr => h r (by simp [hr]))

theorem strict_optional {rule : ρ} (h : P rule) : (optional rule : Script ρ α).Strict P :=
  fun _ => strict_attempt h (fun _ => trivial) trivial

theorem strict_rounds {bounds : Bounds} {rule : ρ} (h : P rule) (fuel count : Nat) :
    (rounds bounds rule fuel count : Script ρ α).Strict P := by
  induction fuel generalizing count with
  | zero => exact trivial
  | succ fuel ih =>
    simp only [rounds]
    split
    · refine strict_attempt h (fun span => ?_) (direct_endRounds bounds count).strict
      split
      · exact (direct_endRounds bounds _).strict
      · exact ih (count + 1)
    · exact (direct_endRounds bounds count).strict

theorem strict_repetition {fuel : Nat} {bounds : Bounds} {rule : ρ} (h : P rule) :
    (repetition fuel bounds rule : Script ρ α).Strict P := by
  unfold repetition
  split
  · exact strict_rounds h fuel 0
  · exact trivial

/-! ### The applications of a run -/

variable {applyRule : ρ → Scanner α → Option (Outcome × Scanner α)}

/-- The applications that a run makes, in order: which rule to which scanner, and how the run goes on
for every outcome. -/
def calls (applyRule : ρ → Scanner α → Option (Outcome × Scanner α)) :
    Script ρ α → Scanner α → List (ρ × Scanner α × (Outcome → Script ρ α))
  | .answer _, _ => []
  | .peek next, s => (next s.peek.1).calls applyRule s.peek.2
  | .advance next, s => (next s.advance.1).calls applyRule s.advance.2
  | .mark next, s => next.calls applyRule s.pushMark
  | .rollback next, s => (next s.rollback.1).calls applyRule s.rollback.2
  | .commit next, s => (next s.commit.1).calls applyRule s.commit.2
  | .inspect next, s => (next s.view).calls applyRule s
  | .report record next, s => next.calls applyRule (s.report record)
  | .apply rule next, s =>
    (rule, s, next) ::
      match applyRule rule s with
      | none => []
      | some (outcome, t) => (next outcome).calls applyRule t
  | .unfinished, _ => []

variable {c : Script ρ α} {r r' : ρ} {s t u u' : Scanner α} {k k' : Outcome → Script ρ α}
  {m m' : Misuse} {t' : Scanner α}

theorem mem_calls_apply {rule : ρ} {next : Outcome → Script ρ α} :
    (r, u, k) ∈ (apply rule next).calls applyRule s ↔
      (r, u, k) = (rule, s, next) ∨
        ∃ o v, applyRule rule s = some (o, v) ∧ (r, u, k) ∈ (next o).calls applyRule v := by
  simp only [calls, List.mem_cons]
  rcases applyRule rule s with _ | ⟨o, v⟩ <;> simp [and_assoc]

/-- A run comes to each of its applications; from there on it goes like the script that begins with it. -/
theorem exists_of_mem_calls (h : (r, u, k) ∈ c.calls applyRule s) :
    (∃ before, c.calls applyRule s = before ++ (apply r k).calls applyRule u) ∧
      c.run applyRule s = (apply r k).run applyRule u ∧
      (c.Strict P → (apply r k : Script ρ α).Strict P) := by
  induction c generalizing s with
  | answer outcome => cases h
  | peek next ih =>
    obtain ⟨hcalls, hrun, hstrict⟩ := ih _ h
    exact ⟨hcalls, hrun, fun hc => hstrict (hc _)⟩
  | advance next ih =>
    obtain ⟨hcalls, hrun, hstrict⟩ := ih _ h
    exact ⟨hcalls, hrun, fun hc => hstrict (hc _)⟩
  | mark next ih => exact ih h
  | rollback next ih =>
    obtain ⟨hcalls, hrun, hstrict⟩ := ih _ h
    exact ⟨hcalls, hrun, fun hc => hstrict (hc _)⟩
  | commit next ih =>
    obtain ⟨hcalls, hrun, hstrict⟩ := ih _ h
    exact ⟨hcalls, hrun, fun hc => hstrict (hc _)⟩
  | inspect next ih =>
    obtain ⟨hcalls, hrun, hstrict⟩ := ih _ h
    exact ⟨hcalls, hrun, fun hc => hstrict (hc _)⟩
  | report record next ih => exact ih h
  | apply rule next ih =>
    rcases mem_calls_apply.mp h with h | ⟨o, v, ha, h⟩
    · cases h
      exact ⟨⟨[], rfl⟩, rfl, id⟩
    · obtain ⟨⟨before, hcalls⟩, hrun, hstrict⟩ := ih o h
      refine ⟨⟨(rule, s, next) :: before, ?_⟩, ?_, fun hc => hstrict (hc.2.2 o)⟩
      · rw [calls, ha]
        simp only [hcalls, List.cons_append]
      · rw [run, ha]
        exact hrun
  | unfinished => cases h

theorem Strict.of_mem_calls (hc : c.Strict P) (h : (r, u, k) ∈ c.calls applyRule s) :
    P r ∧ ∀ m, k (.failed m) = .answer (.failed m) := by
  obtain ⟨-, -, hstrict⟩ := exists_of_mem_calls h
  exact ⟨(hstrict hc).1, (hstrict hc).2.1⟩

/-- A strict script fails as an application in it does. -/
theorem Strict.run_of_failed (hc : c.Strict P) (h : (r, u, k) ∈ c.calls applyRule s)
    (hr : applyRule r u = some (.failed m, t)) : c.run applyRule s = some (.failed m, t) := by
  obtain ⟨-, hrun, -⟩ := exists_of_mem_calls (P := P) h
  rw [hrun]
  simp only [run, hr, (hc.of_mem_calls h).2]

/-- In a strict script an application that fails is the last. -/
theorem Strict.getLast?_calls (hc : c.Strict P) (h : (r, u, k) ∈ c.calls applyRule s)
    (hr : applyRule r u = some (.failed m, t)) :
    (c.calls applyRule s).getLast? = some (r, u, k) := by
  obtain ⟨⟨before, hcalls⟩, -, -⟩ := exists_of_mem_calls (P := P) h
  rw [hcalls]
  simp [calls, hr, (hc.of_mem_calls h).2]

theorem Strict.eq_of_failed (hc : c.Strict P) (h : (r, u, k) ∈ c.calls applyRule s)
    (hr : applyRule r u = some (.failed m, t)) (h' : (r', u', k') ∈ c.calls applyRule s)
    (hr' : applyRule r' u' = some (.failed m', t')) : (r, u, k) = (r', u', k') :=
  Option.some.inj ((hc.getLast?_calls h hr).symm.trans (hc.getLast?_calls h' hr'))

end Script

/-! ### Rules -/

namespace Rule

/-- The rules that a rule applies: those it is put together from, or the body of a nonterminal. -/
inductive Uses (g : Grammar (Rule α)) : Rule α → Rule α → Prop
  | concat {rules : List (Rule α)} {r : Rule α} (hr : r ∈ rules) : Uses g (.concat rules) r
  | choice {rules : List (Rule α)} {r : Rule α} (hr : r ∈ rules) : Uses g (.choice rules) r
  | optional (rule : Rule α) : Uses g (.optional rule) rule
  | repetition (bounds : Bounds) (rule : Rule α) : Uses g (.repetition bounds rule) rule
  | body {n : Nonterminal} {body : Rule α} (hb : g.body? n = some body) : Uses g (.nonterminal n) body

variable {g : Grammar (Rule α)} {rule r : Rule α}

theorem Uses.plain (h : Uses g rule r) (hg : g.Plain) (hrule : rule.Plain) : r.Plain := by
  cases h with
  | concat hr => exact composed_concat_iff.mp hrule r hr
  | choice hr => exact composed_choice_iff.mp hrule r hr
  | optional => exact composed_optional_iff.mp hrule
  | repetition => exact composed_repetition_iff.mp hrule
  | body hb => exact hg _ _ hb

variable [Symbol α]

/-- All but custom rules have strict scripts, whatever they consist of. -/
theorem script_strict_uses (hrule : ∀ c, rule ≠ .custom c) (fuel : Nat) :
    (rule.script g fuel).Strict (Uses g rule) := by
  cases rule with
  | symbol | oneOf | range => exact (Script.direct_acceptIf _).strict
  | endOfInput => exact Script.direct_endOfInput.strict
  | caseless => exact (Script.direct_acceptAll _ : Script.Direct (.acceptAll _)).strict
  | concat rules => exact Script.strict_sequence fun _ => .concat
  | choice rules => exact Script.strict_choice fun _ => .choice
  | optional rule => exact Script.strict_optional (.optional rule)
  | repetition bounds rule => exact Script.strict_repetition (.repetition bounds rule)
  | nonterminal n =>
    simp only [script]
    split
    · rename_i body hb
      exact ⟨.body hb, fun _ => rfl, fun _ => trivial⟩
    · exact trivial
  | custom c => exact absurd rfl (hrule c)

theorem script_strict (hg : g.Plain) (hrule : rule.Plain) (fuel : Nat) :
    (rule.script g fuel).Strict Plain := by
  have hne : ∀ c, rule ≠ .custom c := by
    rintro c rfl
    cases hrule with
    | custom h => exact h
  exact (script_strict_uses hne fuel).mono fun _ h => h.plain hg hrule

end Rule

end Abnf
