import Abnf.Proofs.Peg
import Abnf.Rule.Fuel

/-!
# Abnf.Proofs.Agreement — applying a rule evaluates the parsing expression

Over an input, whatever is buffered of it and whatever marks are set, an application comes to the
outcome that the rule has as a parsing expression at the scanner's position.

* `Script.comesTo_of_applyAll`, `.comesTo_of_choice`, `.comesTo_of_rounds`: what is left of a
  combinator, by recursion on its own recursion.
* `Rule.comesTo_of_apply`: an application that ends has evaluated the rule (induction on fuel).
-/

namespace Abnf

variable {α : Type} {input : List α}

open Scanner

/-! ### From applications to evaluations -/

namespace Script

variable {ρ : Type} {applyRule : ρ → Scanner α → Option (Outcome × Scanner α)} {s t u : Scanner α}
  {o : Outcome}

theorem run_accept {top : Nat} {marks : List Nat} (hu : u.marks = top :: marks)
    (h : (accept : Script ρ α).run applyRule u = some (o, t)) : o = .matched ⟨top, u.position⟩ := by
  simp only [accept, run, commit_of_marks hu] at h
  cases h
  rfl

theorem run_reject {top : Nat} {marks : List Nat} (hu : u.marks = top :: marks)
    (h : (reject : Script ρ α).run applyRule u = some (o, t)) : o = .noMatch := by
  simp only [reject, run, rollback_of_marks hu] at h
  cases h
  rfl

theorem not_matched_of_reject {span : Span} :
    (reject : Script ρ α).run applyRule u ≠ some (.matched span, t) := by
  intro h
  simp only [reject, run] at h
  split at h <;> cases h

/-- The end of a repetition, with so few rounds that it is none or with enough. -/
theorem run_endRounds {top : Nat} {marks : List Nat} {b : Bounds} {count : Nat}
    (hm : u.marks = top :: marks)
    (h : (endRounds b count : Script ρ α).run applyRule u = some (o, t)) :
    (count < b.min ∧ o = .noMatch) ∨ (b.min ≤ count ∧ o = .matched ⟨top, u.position⟩) := by
  unfold endRounds at h
  split at h
  · rename_i hlt
    exact .inl ⟨hlt, run_reject (u := u.report (.tooFewRounds count b.min u.view.position)) hm h⟩
  · exact .inr ⟨by omega, run_accept hm h⟩

theorem run_acceptIf {test : α → Bool} (hs : s.Ordered) (hin : s.Reads input)
    (h : (acceptIf test : Script ρ α).run applyRule s = some (o, t)) :
    (∃ a, input[s.position]? = some a ∧ test a = true ∧
        o = .matched ⟨s.position, s.position + 1⟩) ∨
      ((∀ a, input[s.position]? = some a → test a = false) ∧ o = .noMatch) := by
  rw [← hin.peek_fst hs.position_le]
  simp only [acceptIf, run] at h
  cases hc : s.peek.1 with
  | none =>
    rw [hc] at h
    cases h
    exact .inr ⟨by simp, rfl⟩
  | some a =>
    rw [hc] at h
    dsimp only at h
    split at h
    · rename_i htest
      have hlt := position_lt_of_peek hs.position_le hc
      simp only [consume, run, advance_of_lt hlt, position_peek] at h
      cases h
      exact .inl ⟨a, rfl, htest, rfl⟩
    · rename_i htest
      cases h
      refine .inr ⟨?_, rfl⟩
      rintro b ⟨⟩
      simpa using htest

theorem run_endOfInput (hs : s.Ordered) (hin : s.Reads input)
    (h : (endOfInput : Script ρ α).run applyRule s = some (o, t)) :
    (s.position = input.length ∧ o = .matched ⟨s.position, s.position⟩) ∨
      (s.position ≠ input.length ∧ o = .noMatch) := by
  have hpeek := hin.peek_fst hs.position_le
  have hle : s.position ≤ input.length := hs.position_le.trans hin.size_le
  simp only [endOfInput, run] at h
  cases hc : s.peek.1 with
  | none =>
    rw [hc, eq_comm, List.getElem?_eq_none_iff] at hpeek
    rw [hc] at h
    cases h
    exact .inl ⟨by omega, by simp [Span.empty, view]⟩
  | some a =>
    rw [hc, eq_comm, List.getElem?_eq_some_iff] at hpeek
    obtain ⟨hlt, -⟩ := hpeek
    rw [hc] at h
    cases h
    exact .inr ⟨by omega, rfl⟩

variable [Symbol α] {g : Grammar (Rule α)}

/-- The symbols seen are compared with those expected, one by one. -/
theorem run_acceptAll {top : Nat} {marks : List Nat} : ∀ (expected : List α) (u : Scanner α),
    u.Ordered → u.Reads input → u.marks = top :: marks →
    (acceptAll (expected.map Symbol.sameButCase) : Script ρ α).run applyRule u = some (o, t) →
    (expected.map Symbol.lower <+: (input.drop u.position).map Symbol.lower ∧
        o = .matched ⟨top, u.position + expected.length⟩) ∨
      (¬ expected.map Symbol.lower <+: (input.drop u.position).map Symbol.lower ∧ o = .noMatch)
  | [], u, _, _, hm, h => .inl ⟨List.nil_prefix, run_accept hm h⟩
  | a :: as, u, hu, hin, hm, h => by
    have hpeek : u.peek.2.marks = top :: marks := (marks_peek u).trans hm
    have hlook := hin.peek_fst hu.position_le
    simp only [List.map_cons, acceptAll, run] at h
    cases hc : u.peek.1 with
    | none =>
      rw [hc, eq_comm, List.getElem?_eq_none_iff] at hlook
      rw [hc] at h
      refine .inr ⟨?_, run_reject hpeek h⟩
      simp [List.drop_eq_nil_of_le hlook]
    | some b =>
      rw [hc, eq_comm, List.getElem?_eq_some_iff] at hlook
      obtain ⟨hlt, rfl⟩ := hlook
      rw [List.drop_eq_getElem_cons hlt, List.map_cons, List.map_cons, List.cons_prefix_cons]
      rw [hc] at h
      dsimp only at h
      split at h
      · rename_i htest
        have hsame := Symbol.sameButCase_iff.mp htest
        have hbuf := position_lt_of_peek hu.position_le hc
        have hadv := advance_of_lt hbuf
        have hordered := hu.peek.advance
        have hreads := hin.peek_snd.step (.advance _)
        simp only [run, hadv, position_peek] at h hordered hreads
        rcases run_acceptAll as _ hordered hreads hpeek h with ⟨has, rfl⟩ | ⟨has, rfl⟩
        · refine .inl ⟨⟨hsame, has⟩, ?_⟩
          rw [List.length_cons, Nat.add_comm as.length, Nat.add_assoc]
        · exact .inr ⟨fun h => has h.2, rfl⟩
      · rename_i htest
        exact .inr ⟨fun h => htest (Symbol.sameButCase_iff.mpr h.1), run_reject hpeek h⟩

/-- A way to apply a rule keeps the contract and comes to what the rule does. -/
def Agrees (g : Grammar (Rule α)) (input : List α)
    (applyRule : Rule α → Scanner α → Option (Outcome × Scanner α)) (r : Rule α) : Prop :=
  ∀ s o t, s.Ordered → s.Reads input → applyRule r s = some (o, t) →
    Contract s o t ∧ Steps s t ∧ r.ComesTo g input s.position o

section Agrees

variable {applyRule : Rule α → Scanner α → Option (Outcome × Scanner α)}

/-- The mark at `top` is where the concatenation began, of which these rules are the rest. -/
theorem comesTo_of_applyAll {top : Nat} {marks : List Nat} : ∀ (rules : List (Rule α))
    (u : Scanner α), (∀ r ∈ rules, Agrees g input applyRule r) → u.Ordered → u.Reads input →
    u.marks = top :: marks → (applyAll rules).run applyRule u = some (o, t) →
    ∃ o', (Rule.concat rules).ComesTo g input u.position o' ∧ o = o'.since top
  | [], u, _, _, _, hm, h => ⟨_, .concatNil, run_accept hm h⟩
  | rule :: rest, u, hr, hu, hin, hm, h => by
    have hfirst := hr rule (by simp)
    obtain ⟨v, ⟨span, hv, h⟩ | ⟨hv, h⟩ | ⟨m, hv, rfl, rfl⟩⟩ := run_attempt h
    · obtain ⟨hc, hsteps, hcomes⟩ := hfirst _ _ _ hu hin hv
      obtain rfl := hc.span_eq
      obtain ⟨o', hrest, rfl⟩ := comesTo_of_applyAll rest v (fun r h => hr r (by simp [h]))
        (hu.steps hsteps) (hin.steps hsteps) (hc.1.trans hm) h
      exact ⟨_, .concatCons hcomes hrest, (Outcome.since_since _ _ _).symm⟩
    · obtain ⟨hc, -, hcomes⟩ := hfirst _ _ _ hu hin hv
      obtain rfl := run_reject (hc.2.1.trans hm) h
      exact ⟨_, .concatElse hcomes (by simp), rfl⟩
    · exact ⟨_, .concatElse (hfirst _ _ _ hu hin hv).2.2 (by simp), rfl⟩

theorem comesTo_of_choice : ∀ (rules : List (Rule α)) (u : Scanner α),
    (∀ r ∈ rules, Agrees g input applyRule r) → u.Ordered → u.Reads input →
    (choice rules).run applyRule u = some (o, t) → (Rule.choice rules).ComesTo g input u.position o
  | [], _, _, _, _, h => by
    cases h
    exact .choiceNil
  | rule :: rest, u, hr, hu, hin, h => by
    have hfirst := hr rule (by simp)
    obtain ⟨v, ⟨span, hv, h⟩ | ⟨hv, h⟩ | ⟨m, hv, rfl, rfl⟩⟩ := run_attempt h
    · cases h
      exact .choiceFirst (hfirst _ _ _ hu hin hv).2.2 (by simp)
    · obtain ⟨hc, hsteps, hcomes⟩ := hfirst _ _ _ hu hin hv
      have hrest := comesTo_of_choice rest v (fun r h => hr r (by simp [h])) (hu.steps hsteps)
        (hin.steps hsteps) h
      rw [hc.1] at hrest
      exact .choiceNext hcomes hrest
    · exact .choiceFirst (hfirst _ _ _ hu hin hv).2.2 (by simp)

theorem comesTo_of_optional {rule : Rule α} (hr : Agrees g input applyRule rule) (hs : s.Ordered)
    (hin : s.Reads input) (h : (optional rule).run applyRule s = some (o, t)) :
    (Rule.optional rule).ComesTo g input s.position o := by
  simp only [optional, run] at h
  obtain ⟨v, ⟨span, hv, h⟩ | ⟨hv, h⟩ | ⟨m, hv, rfl, rfl⟩⟩ := run_attempt h
  · cases h
    exact .optional (hr _ _ _ hs hin hv).2.2 (by simp)
  · cases h
    exact .optionalElse (hr _ _ _ hs hin hv).2.2
  · exact .optional (hr _ _ _ hs hin hv).2.2 (by simp)

/-- The mark at `top` is where the repetition began, of which `count` rounds are over. -/
theorem comesTo_of_rounds {b : Bounds} {rule : Rule α} {top : Nat} {marks : List Nat}
    (hr : Agrees g input applyRule rule) (hb : b.inOrder) : ∀ (fuel count : Nat) (u : Scanner α),
    u.Ordered → u.Reads input → u.marks = top :: marks →
    (rounds b rule fuel count).run applyRule u = some (o, t) →
    ∃ o', (Rule.repetition (b.after count) rule).ComesTo g input u.position o' ∧ o = o'.since top
  | 0, _, _, _, _, _, h => nomatch h
  | fuel + 1, count, u, hu, hin, hm, h => by
    have hafter := Bounds.inOrder_after hb count
    simp only [rounds] at h
    split at h
    · rename_i hmore
      have hmax := (Bounds.max_after_ne_zero_iff b count).mpr hmore
      obtain ⟨v, ⟨span, hv, h⟩ | ⟨hv, h⟩ | ⟨m, hv, rfl, rfl⟩⟩ := run_attempt h
      · obtain ⟨hc, hsteps, hcomes⟩ := hr _ _ _ hu hin hv
        obtain rfl := hc.span_eq
        have hmarks : v.marks = top :: marks := hc.1.trans hm
        split at h
        · rename_i hempty
          have hp : u.position = v.position := by simpa using hempty
          rw [← hp] at hcomes
          rcases run_endRounds hmarks h with ⟨hlt, -⟩ | ⟨-, rfl⟩
          · omega
          · exact ⟨_, .emptyRound hafter hmax hcomes, by rw [hp]; rfl⟩
        · rename_i hempty
          have hp : v.position ≠ u.position := fun hp => hempty (by simp [hp])
          obtain ⟨o', hrest, rfl⟩ := comesTo_of_rounds hr hb fuel (count + 1) v (hu.steps hsteps)
            (hin.steps hsteps) hmarks h
          rw [← Bounds.after_after] at hrest
          exact ⟨_, .round hafter hmax hcomes hp hrest, (Outcome.since_since _ _ _).symm⟩
      · obtain ⟨hc, -, hcomes⟩ := hr _ _ _ hu hin hv
        rcases run_endRounds (hc.2.1.trans hm) h with ⟨hlt, rfl⟩ | ⟨hle, rfl⟩
        · have hmin : (b.after count).min ≠ 0 := by
            show b.min - count ≠ 0
            omega
          exact ⟨_, .tooFew hafter hmax hcomes hmin, rfl⟩
        · have hmin : (b.after count).min = 0 := by
            show b.min - count = 0
            omega
          exact ⟨_, .enough hafter hmax hcomes hmin, by rw [hc.1]; rfl⟩
      · exact ⟨_, .roundFails hafter hmax (hr _ _ _ hu hin hv).2.2, rfl⟩
    · rename_i hmore
      have hmore : b.allowMore count = false := by simpa using hmore
      have hmax := Bounds.max_after_of_not_allowMore hmore
      have hle := Bounds.min_le_of_not_allowMore hb hmore
      rcases run_endRounds hm h with ⟨hlt, -⟩ | ⟨-, rfl⟩
      · omega
      · exact ⟨_, .full hafter hmax, rfl⟩

end Agrees

end Script

namespace Rule

variable [Symbol α] {g : Grammar (Rule α)}

/-- **An application that ends has evaluated the rule.** -/
theorem comesTo_of_apply (hg : g.Plain) : ∀ (fuel : Nat) (rule : Rule α) (s : Scanner α)
    (o : Outcome) (t : Scanner α), rule.Plain → s.Ordered → s.Reads input →
    rule.apply g fuel s = some (o, t) → rule.ComesTo g input s.position o
  | 0, _, _, _, _, _, _, _, h => nomatch h
  | fuel + 1, rule, s, o, t, hrule, hs, hin, h => by
    have ih : ∀ r : Rule α, r.Plain → Script.Agrees g input (apply g fuel) r :=
      fun r hr u o v hu hin h => ⟨(plain_keepsContract hg hr fuel u o v hu h).1,
        steps_of_apply g h, comesTo_of_apply hg fuel r u o v hr hu hin h⟩
    rw [apply_succ] at h
    cases hrule with
    | symbol expected =>
      rcases Script.run_acceptIf hs hin h with ⟨a, ha, htest, rfl⟩ | ⟨hno, rfl⟩
      · obtain rfl := Symbol.same_iff.mp htest
        exact .symbol ha
      · refine .symbolElse fun ha => ?_
        have htest := hno _ ha
        simp [Symbol.same] at htest
    | oneOf candidates =>
      rcases Script.run_acceptIf hs hin h with ⟨a, ha, htest, rfl⟩ | ⟨hno, rfl⟩
      · obtain ⟨b, hb, hab⟩ := List.any_eq_true.mp htest
        obtain rfl := Symbol.same_iff.mp hab
        exact .oneOf ha hb
      · refine .oneOfElse fun a hmem ha => ?_
        have htest := List.any_eq_false.mp (hno a ha) a hmem
        exact htest (Symbol.same_iff.mpr rfl)
    | range low high =>
      rcases Script.run_acceptIf hs hin h with ⟨a, ha, htest, rfl⟩ | ⟨hno, rfl⟩
      · exact .range ha (by simpa [Symbol.between] using htest)
      · refine .rangeElse fun a hlow hhigh ha => ?_
        have htest := hno a ha
        simp [Symbol.between, hlow, hhigh] at htest
    | endOfInput =>
      rcases Script.run_endOfInput hs hin h with ⟨hp, rfl⟩ | ⟨hp, rfl⟩
      · rw [hp]
        exact .atEnd
      · exact .beforeEnd hp
    | caseless expected =>
      rcases Script.run_acceptAll expected s.pushMark hs.pushMark (hin.step (.pushMark s)) rfl h
        with ⟨hpre, rfl⟩ | ⟨hno, rfl⟩
      · exact .caseless hpre
      · exact .caselessElse hno
    | @concat rules hr =>
      obtain ⟨o', hcomes, rfl⟩ := Script.comesTo_of_applyAll rules s.pushMark
        (fun r hmem => ih r (hr r hmem)) hs.pushMark (hin.step (.pushMark s)) rfl h
      have hself : o'.since s.position = o' := hcomes.since_self
      rw [hself]
      exact hcomes
    | choice hr => exact Script.comesTo_of_choice _ s (fun r hmem => ih r (hr r hmem)) hs hin h
    | optional hr => exact Script.comesTo_of_optional (ih _ hr) hs hin h
    | @repetition b rule hr =>
      simp only [script, Script.repetition] at h
      split at h
      · rename_i hb
        obtain ⟨o', hcomes, rfl⟩ := Script.comesTo_of_rounds (ih rule hr) hb fuel 0 s.pushMark
          hs.pushMark (hin.step (.pushMark s)) rfl h
        have hself : o'.since s.position = o' := hcomes.since_self
        rw [Bounds.after_zero] at hcomes
        rw [hself]
        exact hcomes
      · rename_i hb
        cases h
        exact .outOfOrder (by simpa using hb)
    | nonterminal n =>
      simp only [script] at h
      cases hb : g.body? n with
      | none =>
        rw [hb] at h
        cases h
        exact .undefined hb
      | some body =>
        rw [hb] at h
        exact .body hb (ih body (hg n body hb) s o t hs hin (apply_of_run_apply h)).2.2
    | custom hc => exact hc.elim

end Rule

end Abnf
