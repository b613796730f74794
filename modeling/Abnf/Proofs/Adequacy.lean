import Abnf.Proofs.Agreement
import Abnf.Proofs.Strict

/-!
# Abnf.Proofs.Adequacy — what a rule comes to, some application ends with

By induction on the evaluation.  A concatenation and a repetition are evaluated from the middle on as
well, and what is left of them there is no application of a rule but the rest of a script; so the
induction is about what is left (`Rule.Ends`), from which the application follows (`Rule.Ends.apply`).
Fuel is added up by taking the longer of two runs.
-/

namespace Abnf

variable {α : Type}

open Scanner

/-! ### Runs that end -/

namespace Script

variable {ρ : Type} {applyRule : ρ → Scanner α → Option (Outcome × Scanner α)}

theorem Direct.run_isSome {c : Script ρ α} (h : c.Direct) (s : Scanner α) :
    ∃ x, c.run applyRule s = some x := by
  induction c generalizing s with
  | answer outcome => exact ⟨_, rfl⟩
  | peek next ih => exact ih _ (h _) _
  | advance next ih => exact ih _ (h _) _
  | mark next ih => exact ih h _
  | rollback next ih => exact ih _ (h _) _
  | commit next ih => exact ih _ (h _) _
  | inspect next ih => exact ih _ (h _) _
  | report record next ih => exact ih h _
  | apply rule next => exact h.elim
  | unfinished => exact h.elim

/-- However rules are applied, the run is the same. -/
theorem Direct.exists_run {c : Script ρ α} (h : c.Direct) (s : Scanner α) :
    ∃ x, ∀ applyRule, c.run applyRule s = some x := by
  have hnone (applyRule : ρ → Scanner α → Option (Outcome × Scanner α)) :
      Extends (fun (_ : ρ) (_ : Scanner α) => none) applyRule := fun _ _ _ h => nomatch h
  obtain ⟨x, hx⟩ : ∃ x, c.run (fun (_ : ρ) (_ : Scanner α) => none) s = some x := h.run_isSome s
  exact ⟨x, fun applyRule => run_mono (hnone applyRule) c s x hx⟩

variable [Symbol α] {g : Grammar (Rule α)}

/-- Some fuel suffices for the script. -/
def Halts (g : Grammar (Rule α)) (c : Script (Rule α) α) (s : Scanner α) : Prop :=
  ∃ fuel x, c.run (Rule.apply g fuel) s = some x

/-- Some fuel suffices for the rounds of a repetition after `count` of them. -/
def HaltsRounds (g : Grammar (Rule α)) (b : Bounds) (rule : Rule α) (count : Nat)
    (s : Scanner α) : Prop :=
  ∃ fuel x, (rounds b rule fuel count).run (Rule.apply g fuel) s = some x

theorem Direct.halts {c : Script (Rule α) α} (h : c.Direct) (s : Scanner α) : Halts g c s := by
  obtain ⟨x, hx⟩ : ∃ x, c.run (Rule.apply g 0) s = some x := h.run_isSome s
  exact ⟨0, x, hx⟩

variable {rule : Rule α} {s u : Scanner α} {o : Outcome} {n : Nat}

theorem halts_attempt {onMatch : Span → Script (Rule α) α} {onNoMatch : Script (Rule α) α}
    (h : rule.apply g n s = some (o, u))
    (hmatch : ∀ span, o = .matched span → Halts g (onMatch span) u)
    (hnoMatch : o = .noMatch → Halts g onNoMatch u) :
    Halts g (attempt rule onMatch onNoMatch) s := by
  cases o with
  | matched span =>
    obtain ⟨m, x, hx⟩ := hmatch span rfl
    refine ⟨max n m, x, ?_⟩
    simp only [attempt, run, Rule.apply_mono g (le_max_left n m) _ _ _ h]
    exact run_mono (Rule.apply_mono g (le_max_right n m)) _ _ _ hx
  | noMatch =>
    obtain ⟨m, x, hx⟩ := hnoMatch rfl
    refine ⟨max n m, x, ?_⟩
    simp only [attempt, run, Rule.apply_mono g (le_max_left n m) _ _ _ h]
    exact run_mono (Rule.apply_mono g (le_max_right n m)) _ _ _ hx
  | failed misuse => exact ⟨n, (.failed misuse, u), by simp only [attempt, run, h]⟩

theorem haltsRounds_of_not_allowMore {b : Bounds} {count : Nat} (h : b.allowMore count = false)
    (s : Scanner α) : HaltsRounds g b rule count s := by
  obtain ⟨x, hx⟩ : ∃ x, (endRounds b count).run (Rule.apply g 1) s = some x :=
    (direct_endRounds b count).run_isSome s
  exact ⟨1, x, by simp only [rounds, h]; exact hx⟩

/-- Another round halts if the application does, and the rounds after it if there are any. -/
theorem haltsRounds_of_apply {b : Bounds} {count : Nat} (hmore : b.allowMore count = true)
    (h : rule.apply g n s = some (o, u))
    (hrest : ∀ span, o = .matched span → ¬ span.isEmpty → HaltsRounds g b rule (count + 1) u) :
    HaltsRounds g b rule count s := by
  cases o with
  | matched span =>
    by_cases hempty : span.isEmpty
    · obtain ⟨x, hx⟩ : ∃ x, (endRounds b (max count b.min)).run (Rule.apply g (n + 1)) u = some x :=
        (direct_endRounds b _).run_isSome u
      refine ⟨n + 1, x, ?_⟩
      simp only [rounds, hmore, if_true, attempt, run, Rule.apply_mono g n.le_succ _ _ _ h, hempty]
      exact hx
    · obtain ⟨m, x, hx⟩ := hrest span rfl hempty
      refine ⟨max n m + 1, x, ?_⟩
      have hfirst := Rule.apply_mono g (Nat.le_succ_of_le (le_max_left n m)) _ _ _ h
      simp only [rounds, hmore, if_true, attempt, run, hfirst, hempty]
      exact rounds_mono (Rule.apply_mono g (Nat.le_succ_of_le (le_max_right n m))) b rule
        (le_max_right n m) _ _ _ hx
  | noMatch =>
    obtain ⟨x, hx⟩ : ∃ x, (endRounds b count).run (Rule.apply g (n + 1)) u = some x :=
      (direct_endRounds b count).run_isSome u
    refine ⟨n + 1, x, ?_⟩
    simp only [rounds, hmore, if_true, attempt, run, Rule.apply_mono g n.le_succ _ _ _ h]
    exact hx
  | failed misuse =>
    refine ⟨n + 1, (.failed misuse, u), ?_⟩
    simp only [rounds, hmore, if_true, attempt, run, Rule.apply_mono g n.le_succ _ _ _ h]

end Script

/-! ### From evaluations to applications -/

/-- In order, over the input, at the position. -/
structure Scanner.At (s : Scanner α) (input : List α) (p : Nat) : Prop where
  ordered : s.Ordered
  reads : s.Reads input
  position : s.position = p

theorem Scanner.At.pushMark {s : Scanner α} {input : List α} {p : Nat} (h : s.At input p) :
    s.pushMark.At input p :=
  ⟨h.ordered.pushMark, h.reads.step (.pushMark s), h.position⟩

namespace Rule

variable [Symbol α] {g : Grammar (Rule α)} {input : List α} {rule : Rule α} {p : Nat} {o : Outcome}

/-- What is left of a rule at a position ends: of a concatenation the rules still to be applied, of a
repetition the rounds still allowed, and any other rule itself. -/
def Ends (g : Grammar (Rule α)) (input : List α) : Rule α → Nat → Prop
  | .concat rules, p => ∀ u : Scanner α, u.At input p → Script.Halts g (.applyAll rules) u
  | .repetition b rule, p => ∀ (b₀ : Bounds) (count : Nat) (u : Scanner α), b₀.inOrder →
    b = b₀.after count → u.At input p → Script.HaltsRounds g b₀ rule count u
  | rule, p => ∀ u : Scanner α, u.At input p → ∃ fuel x, rule.apply g fuel u = some x

theorem apply_of_halts {c : Script (Rule α) α} {u : Scanner α}
    (hc : ∀ fuel, rule.script g fuel = c) (h : Script.Halts g c u) :
    ∃ fuel x, rule.apply g fuel u = some x := by
  obtain ⟨fuel, x, hx⟩ := h
  exact ⟨fuel + 1, x, by rw [apply_succ, hc]; exact hx⟩

theorem Ends.apply (h : Ends g input rule p) {u : Scanner α} (hu : u.At input p) :
    ∃ fuel x, rule.apply g fuel u = some x := by
  cases rule with
  | concat rules =>
    obtain ⟨fuel, x, hx⟩ := h u.pushMark hu.pushMark
    exact ⟨fuel + 1, x, hx⟩
  | repetition b rule =>
    by_cases hb : b.inOrder
    · obtain ⟨fuel, x, hx⟩ := h b 0 u.pushMark hb b.after_zero.symm hu.pushMark
      exact ⟨fuel + 1, x, by simp only [apply_succ, script, Script.repetition, hb, if_true]; exact hx⟩
    · exact ⟨1, (.noMatch, u), by simp only [apply_succ, script, Script.repetition, hb]; rfl⟩
  | symbol | oneOf | range | endOfInput | caseless | choice | optional | nonterminal | custom =>
    exact h u hu

/-- An application comes to the rule's outcome, and leaves the scanner where that says. -/
theorem at_of_apply (hg : g.Plain) (hrule : rule.Plain) (h : rule.ComesTo g input p o) {n : Nat}
    {u v : Scanner α} {o' : Outcome} (hu : u.At input p) (hv : rule.apply g n u = some (o', v)) :
    o' = o ∧ (∀ m, o = .matched ⟨p, m⟩ → v.At input m) ∧ (o = .noMatch → v.At input p) := by
  obtain ⟨hordered, hreads, rfl⟩ := hu
  obtain rfl := h.unique (comesTo_of_apply hg n rule u o' v hrule hordered hreads hv)
  have hc := (plain_keepsContract hg hrule n u o v hordered hv).1
  have hsteps := steps_of_apply g hv
  refine ⟨rfl, ?_, ?_⟩
  · rintro m rfl
    exact ⟨hordered.steps hsteps, hreads.steps hsteps, hc.2.2.1.symm⟩
  · rintro rfl
    exact ⟨hordered.steps hsteps, hreads.steps hsteps, hc.1⟩

/-- A sub-rule that ends comes to its outcome, and leaves the scanner where that says. -/
theorem apply_sub (hg : g.Plain) (hrule : rule.Plain) (h : rule.ComesTo g input p o)
    (hends : Ends g input rule p) {u : Scanner α} (hu : u.At input p) :
    ∃ n v, rule.apply g n u = some (o, v) ∧ (∀ m, o = .matched ⟨p, m⟩ → v.At input m) ∧
      (o = .noMatch → v.At input p) := by
  obtain ⟨n, ⟨o', v⟩, hv⟩ := hends.apply hu
  obtain ⟨rfl, hat⟩ := at_of_apply hg hrule h hu hv
  exact ⟨n, v, hv, hat⟩

theorem ends_of_comesTo (hg : g.Plain) (h : rule.ComesTo g input p o) :
    rule.Plain → Ends g input rule p := by
  induction h with
  | symbol | symbolElse | oneOf | oneOfElse | range | rangeElse =>
    exact fun _ u _ => apply_of_halts (fun _ => rfl) ((Script.direct_acceptIf _).halts u)
  | atEnd | beforeEnd =>
    exact fun _ u _ => apply_of_halts (fun _ => rfl) (Script.direct_endOfInput.halts u)
  | @caseless expected | @caselessElse expected =>
    intro _ u _
    have hdirect : (Script.acceptRun (expected.map Symbol.sameButCase) : Script (Rule α) α).Direct :=
      Script.direct_acceptAll _
    exact apply_of_halts (fun _ => rfl) (hdirect.halts u)
  | concatNil => exact fun _ u _ => Script.direct_accept.halts u
  | concatCons hfirst _ ihfirst ihrest =>
    intro hplain u hu
    obtain ⟨hplain₁, hplain₂⟩ := hplain.of_concat_cons
    obtain ⟨n, v, hv, hmatch, -⟩ := apply_sub hg hplain₁ hfirst (ihfirst hplain₁) hu
    exact Script.halts_attempt hv (fun _ _ => ihrest hplain₂ v (hmatch _ rfl)) (by simp)
  | concatElse hfirst ho ihfirst =>
    intro hplain u hu
    have hplain₁ := hplain.of_concat_cons.1
    obtain ⟨n, v, hv, -⟩ := apply_sub hg hplain₁ hfirst (ihfirst hplain₁) hu
    exact Script.halts_attempt hv (fun span hspan => absurd hspan (ho span))
      fun _ => Script.direct_reject.halts v
  | choiceNil => exact fun _ u _ => ⟨1, _, rfl⟩
  | choiceFirst hfirst ho ihfirst =>
    intro hplain u hu
    have hplain₁ := hplain.of_choice_cons.1
    obtain ⟨n, v, hv, -⟩ := apply_sub hg hplain₁ hfirst (ihfirst hplain₁) hu
    exact apply_of_halts (fun _ => rfl) (Script.halts_attempt hv (fun _ _ => ⟨0, _, rfl⟩)
      fun hnone => absurd hnone ho)
  | choiceNext hfirst _ ihfirst ihrest =>
    intro hplain u hu
    obtain ⟨hplain₁, hplain₂⟩ := hplain.of_choice_cons
    obtain ⟨n, v, hv, -, hnone⟩ := apply_sub hg hplain₁ hfirst (ihfirst hplain₁) hu
    obtain ⟨_ | m, x, hx⟩ := ihrest hplain₂ v (hnone rfl)
    · cases hx
    · exact apply_of_halts (fun _ => rfl) (Script.halts_attempt hv (by simp) fun _ => ⟨m, x, hx⟩)
  | optional hrule _ ih | optionalElse hrule ih =>
    intro hplain u hu
    have hplain₁ := composed_optional_iff.mp hplain
    obtain ⟨n, v, hv, -⟩ := apply_sub hg hplain₁ hrule (ih hplain₁) hu
    have hattempt : Script.Halts g (.attempt _ (fun span => .answer (.matched span))
        (.answer (.matched (Span.empty u.view.position)))) u :=
      Script.halts_attempt hv (fun _ _ => ⟨0, _, rfl⟩) fun _ => ⟨0, _, rfl⟩
    obtain ⟨m, x, hx⟩ := hattempt
    exact ⟨m + 1, x, hx⟩
  | @outOfOrder b rule p hb =>
    rintro - b₀ count u hb₀ rfl -
    simp [Bounds.inOrder_after hb₀ count] at hb
  | full _ hmax =>
    rintro - b₀ count u - rfl -
    refine Script.haltsRounds_of_not_allowMore ?_ u
    by_contra hmore
    exact (Bounds.max_after_ne_zero_iff b₀ count).mpr (by simpa using hmore) hmax
  | round _ hmax hrule _ _ ihrule ihrest =>
    rintro hplain b₀ count u hb₀ rfl hu
    have hplain₁ := composed_repetition_iff.mp hplain
    obtain ⟨n, v, hv, hmatch, -⟩ := apply_sub hg hplain₁ hrule (ihrule hplain₁) hu
    have hmore := (Bounds.max_after_ne_zero_iff b₀ count).mp hmax
    refine Script.haltsRounds_of_apply hmore hv fun _ _ _ => ?_
    exact ihrest (.repetition _ hplain₁) b₀ (count + 1) v hb₀ (Bounds.after_after b₀ count 1)
      (hmatch _ rfl)
  | emptyRound _ hmax hrule ihrule | enough _ hmax hrule _ ihrule
  | tooFew _ hmax hrule _ ihrule | roundFails _ hmax hrule ihrule =>
    rintro hplain b₀ count u hb₀ rfl hu
    have hplain₁ := composed_repetition_iff.mp hplain
    obtain ⟨n, v, hv, -⟩ := apply_sub hg hplain₁ hrule (ihrule hplain₁) hu
    have hmore := (Bounds.max_after_ne_zero_iff b₀ count).mp hmax
    refine Script.haltsRounds_of_apply hmore hv fun span hspan hempty => ?_
    cases hspan <;> simp at hempty
  | body hb h ih =>
    rintro - u hu
    obtain ⟨n, x, hx⟩ := (ih (hg _ _ hb)).apply hu
    refine ⟨n + 1, x, ?_⟩
    simp only [apply_succ, script, hb, Script.run, hx]
  | undefined hb =>
    rintro - u -
    exact ⟨1, (.failed (.unresolvedRule _), _), by simp only [apply_succ, script, hb]; rfl⟩

theorem apply_of_comesTo (hg : g.Plain) (hrule : rule.Plain) (h : rule.ComesTo g input p o)
    {s : Scanner α} (hs : s.At input p) : ∃ fuel t, rule.apply g fuel s = some (o, t) := by
  obtain ⟨n, v, hv, -⟩ := apply_sub hg hrule h (ends_of_comesTo hg h hrule) hs
  exact ⟨n, v, hv⟩

/-- **Rules are parsing expressions.**  Over an input, whatever part of it is buffered and whatever
marks are set, an application that ends comes to what the rule does at the scanner's position, and to
nothing else; and what the rule comes to there, an application ends with.  A literal matches where its
symbols follow. -/
theorem apply_iff_comesTo (hg : g.Plain) (hrule : rule.Plain) {s : Scanner α} (hs : s.Ordered)
    (hin : s.Reads input) :
    (∀ fuel o t, rule.apply g fuel s = some (o, t) →
        ∀ o', rule.ComesTo g input s.position o' ↔ o' = o) ∧
      (∀ o, rule.ComesTo g input s.position o → ∃ fuel t, rule.apply g fuel s = some (o, t)) ∧
      ∀ expected p o, (literal expected).ComesTo g input p o ↔
        (expected <+: input.drop p ∧ o = .matched ⟨p, p + expected.length⟩) ∨
          (¬ expected <+: input.drop p ∧ o = .noMatch) := by
  refine ⟨fun fuel o t h o' => ?_, fun o h => ?_, fun expected p o => comesTo_literal_iff⟩
  · have hcomes := comesTo_of_apply hg fuel rule s o t hrule hs hin h
    constructor
    · exact fun h' => h'.unique hcomes
    · rintro rfl
      exact hcomes
  · exact apply_of_comesTo hg hrule h ⟨hs, hin, rfl⟩

/-- Nested brackets, then options that match nothing as often as needed, then the end; with one
symbol buffered, and marks set. -/
theorem apply_iff_comesTo_of_nested_brackets :
    (concat [.nonterminal ⟨0, "nested"⟩, .repetition (.atLeast 3) (.optional (.symbol 'x')),
        .endOfInput]).ComesTo
      ⟨1, [(0, .choice [.concat [.symbol '(', .nonterminal ⟨0, "nested"⟩, .symbol ')'],
        .concat []])]⟩ "(())".toList 0 (.matched ⟨0, 4⟩) := by
  have hg : Grammar.Plain ⟨1, [(0, choice [.concat [.symbol '(', .nonterminal ⟨0, "nested"⟩,
      .symbol ')'], .concat []])]⟩ := by
    intro n body h
    simp only [Grammar.body?, List.lookup_cons, List.lookup_nil] at h
    split at h <;> cases h
    simp
  have hrule : (concat [.nonterminal ⟨0, "nested"⟩,
      .repetition (.atLeast 3) (.optional (.symbol 'x')), .endOfInput]).Plain := by
    simp
  have hs : Scanner.Ordered (⟨#['('], .ofList "())".toList, [0, 0], 0, #[]⟩ : Scanner Char) :=
    ⟨by simp, by simp, by simp⟩
  have hin : Scanner.Reads (⟨#['('], .ofList "())".toList, [0, 0], 0, #[]⟩ : Scanner Char)
      "(())".toList :=
    ⟨"())".toList, rfl, Source.delivers_ofList _⟩
  exact ((apply_iff_comesTo hg hrule hs hin).1 12 (.matched ⟨0, 4⟩) _ rfl _).mpr rfl

end Rule

end Abnf
