import Abnf.Proofs.Adequacy

/-!
# Abnf.Proofs.Sight — how far a rule reads

Where a rule comes to an outcome, it reads the input as far as some index.  Neither the marks nor what
is buffered has to do with that: the buffer then ends there, unless it was longer before.  So two
applications at one position, as after going back or in rules put together otherwise, leave buffers
that can be compared.

* `Rule.exists_restSees`: by induction on the evaluation; as for the fuel that suffices, the induction
  is about what is left of a concatenation and of a repetition.
* `Scanner.Reads.buffer_eq`: how long the buffer is says what it holds.
-/

namespace Abnf

variable {α : Type}

open Scanner

namespace Scanner

variable {s t u : Scanner α} {input : List α} {p : Nat}

theorem Reads.buffer_eq (hs : s.Reads input) (ht : t.Reads input)
    (h : s.buffer.size = t.buffer.size) : s.buffer = t.buffer := by
  obtain ⟨rest, hs, -⟩ := hs
  obtain ⟨rest', ht, -⟩ := ht
  have heq := List.append_inj (hs.trans ht.symm) (by simpa using h)
  simpa using heq.1

/-- A look reads one symbol beyond the position, if there is one. -/
theorem At.size_peek (hu : u.At input p) :
    u.peek.2.buffer.size = max u.buffer.size (min (p + 1) input.length) := by
  obtain ⟨hs, hin, rfl⟩ := hu
  have hle := hs.position_le
  have hsize := hin.size_le
  unfold peek
  split
  · rename_i heq
    obtain ⟨rest, rfl, hd⟩ := hin
    cases rest with
    | nil =>
      have hnone := hd.pull_nil.1
      rw [List.append_nil, Array.length_toList, Nat.max_eq_left (Nat.min_le_right _ _)]
      cases hpull : u.source.pull with
      | symbol a next => simp [hpull, Pulled.symbol?] at hnone
      | endOfInput next => rfl
      | failed error next => rfl
    | cons a rest =>
      obtain ⟨next, hpull, -⟩ := hd
      simp [hpull, heq]
  · show u.buffer.size = _
    omega

theorem At.steps {q : Nat} (hu : u.At input p) (h : Steps u t) (hq : t.position = q) :
    t.At input q :=
  ⟨hu.ordered.steps h, hu.reads.steps h, hq⟩

end Scanner

/-! ### Scripts -/

namespace Script

section Blind

variable {ρ : Type} {applyRule : ρ → Scanner α → Option (Outcome × Scanner α)} {t u : Scanner α}
  {o : Outcome}

theorem buffer_of_consume (h : (consume : Script ρ α).run applyRule u = some (o, t)) :
    t.buffer = u.buffer := by
  rw [← buffer_advance u]
  simp only [consume, run] at h
  cases hr : u.advance.1 <;> rw [hr] at h <;> cases h <;> rfl

theorem buffer_of_accept (h : (accept : Script ρ α).run applyRule u = some (o, t)) :
    t.buffer = u.buffer := by
  rw [← buffer_commit u]
  simp only [accept, run] at h
  cases hr : u.commit.1 <;> rw [hr] at h <;> cases h <;> rfl

theorem buffer_of_reject (h : (reject : Script ρ α).run applyRule u = some (o, t)) :
    t.buffer = u.buffer := by
  rw [← buffer_rollback u]
  simp only [reject, run] at h
  cases hr : u.rollback.1 <;> rw [hr] at h <;> cases h <;> rfl

theorem buffer_of_endRounds {b : Bounds} {count : Nat}
    (h : (endRounds b count : Script ρ α).run applyRule u = some (o, t)) : t.buffer = u.buffer := by
  unfold endRounds at h
  split at h
  · exact buffer_of_reject (u := u.report (.tooFewRounds count b.min u.view.position)) h
  · exact buffer_of_accept h

end Blind

variable [Symbol α]

/-- A run of the script at `p` that ends has read the input as far as `e`, and no more of it unless
it was buffered before. -/
def Sees (g : Grammar (Rule α)) (input : List α) (c : Script (Rule α) α) (p e : Nat) : Prop :=
  ∀ (fuel : Nat) (u : Scanner α) (o : Outcome) (t : Scanner α), u.At input p →
    c.run (Rule.apply g fuel) u = some (o, t) → t.buffer.size = max u.buffer.size e

end Script

namespace Rule

variable [Symbol α]

/-- An application of the rule at `p` that ends has read the input as far as `e`, and no more of it
unless it was buffered before. -/
def Sees (g : Grammar (Rule α)) (input : List α) (rule : Rule α) (p e : Nat) : Prop :=
  ∀ (fuel : Nat) (u : Scanner α) (o : Outcome) (t : Scanner α), u.At input p →
    rule.apply g fuel u = some (o, t) → t.buffer.size = max u.buffer.size e

end Rule

namespace Script

variable [Symbol α] {g : Grammar (Rule α)} {input : List α} {p m e e' : Nat} {rule : Rule α}
  {c : Script (Rule α) α} {onMatch : Span → Script (Rule α) α} {onNoMatch : Script (Rule α) α}

theorem sees_accept : (accept : Script (Rule α) α).Sees g input p 0 := by
  intro fuel u o t _ h
  rw [buffer_of_accept h, Nat.max_zero]

theorem sees_reject : (reject : Script (Rule α) α).Sees g input p 0 := by
  intro fuel u o t _ h
  rw [buffer_of_reject h, Nat.max_zero]

theorem sees_endRounds {b : Bounds} {count : Nat} :
    (endRounds b count : Script (Rule α) α).Sees g input p 0 := by
  intro fuel u o t _ h
  rw [buffer_of_endRounds h, Nat.max_zero]

theorem sees_answer (o : Outcome) : (answer o : Script (Rule α) α).Sees g input p 0 := by
  intro fuel u o t _ h
  cases h
  rw [Nat.max_zero]

theorem Sees.mark (h : c.Sees g input p e) : (Script.mark c).Sees g input p e :=
  fun fuel u o t hu hrun => h fuel u.pushMark o t hu.pushMark hrun

theorem sees_acceptIf (test : α → Bool) :
    (acceptIf test : Script (Rule α) α).Sees g input p (min (p + 1) input.length) := by
  intro fuel u o t hu h
  rw [← hu.size_peek]
  simp only [acceptIf, run] at h
  cases hc : u.peek.1 with
  | none =>
    rw [hc] at h
    cases h
    rfl
  | some a =>
    rw [hc] at h
    dsimp only at h
    split at h
    · rw [buffer_of_consume h]
    · cases h
      rfl

theorem sees_endOfInput :
    (endOfInput : Script (Rule α) α).Sees g input p (min (p + 1) input.length) := by
  intro fuel u o t hu h
  rw [← hu.size_peek]
  simp only [endOfInput, run] at h
  cases hc : u.peek.1 <;> rw [hc] at h <;> cases h <;> rfl

/-- The symbols are read one by one, up to the first that fails its test. -/
theorem exists_sees_acceptAll : ∀ (tests : List (α → Bool)) (p : Nat),
    ∃ e, (acceptAll tests : Script (Rule α) α).Sees g input p e
  | [], p => ⟨0, sees_accept⟩
  | test :: rest, p => by
    obtain ⟨e, he⟩ := exists_sees_acceptAll rest (p + 1)
    by_cases hpass : ∃ a, input[p]? = some a ∧ test a = true
    · obtain ⟨a, ha, htest⟩ := hpass
      refine ⟨max (min (p + 1) input.length) e, fun fuel u o t hu h => ?_⟩
      have hpeek : u.peek.2.At input p :=
        hu.steps (.single (.peek u)) ((position_peek u).trans hu.position)
      have hc : u.peek.1 = some a := by
        rw [hu.reads.peek_fst hu.ordered.position_le, hu.position, ha]
      have hadv := advance_of_lt (position_lt_of_peek hu.ordered.position_le hc)
      have hnext : u.peek.2.advance.2.At input (p + 1) := by
        refine hpeek.steps (.single (.advance _)) ?_
        rw [hadv]
        exact congrArg (· + 1) hpeek.position
      simp only [acceptAll, run, hc, htest, if_true] at h
      rw [hadv] at h hnext
      rw [he fuel _ o t hnext h, hu.size_peek, Nat.max_assoc]
    · refine ⟨min (p + 1) input.length, fun fuel u o t hu h => ?_⟩
      rw [← hu.size_peek]
      have hlook := hu.reads.peek_fst hu.ordered.position_le
      rw [hu.position] at hlook
      simp only [acceptAll, run] at h
      cases hc : u.peek.1 with
      | none =>
        rw [hc] at h
        rw [buffer_of_reject h]
      | some a =>
        have htest : test a = false := by
          by_contra htest
          exact hpass ⟨a, hlook.symm.trans hc, by simpa using htest⟩
        simp only [hc, htest] at h
        rw [buffer_of_reject h]

/-! ### Attempts -/

section Attempt

variable (hg : g.Plain) (hplain : rule.Plain) (hrule : rule.Sees g input p e)
include hg hplain hrule

theorem sees_attempt_matched (h : rule.ComesTo g input p (.matched ⟨p, m⟩))
    (hmatch : (onMatch ⟨p, m⟩).Sees g input m e') :
    (attempt rule onMatch onNoMatch).Sees g input p (max e e') := by
  intro fuel u o t hu hrun
  obtain ⟨v, ⟨span, hv, hrun⟩ | ⟨hv, -⟩ | ⟨misuse, hv, -⟩⟩ := run_attempt hrun
  · obtain ⟨heq, hat, -⟩ := Rule.at_of_apply hg hplain h hu hv
    cases heq
    rw [hmatch fuel v o t (hat m rfl) hrun, hrule fuel u _ v hu hv, Nat.max_assoc]
  · cases (Rule.at_of_apply hg hplain h hu hv).1
  · cases (Rule.at_of_apply hg hplain h hu hv).1

theorem sees_attempt_noMatch (h : rule.ComesTo g input p .noMatch)
    (hnoMatch : onNoMatch.Sees g input p e') :
    (attempt rule onMatch onNoMatch).Sees g input p (max e e') := by
  intro fuel u o t hu hrun
  obtain ⟨v, ⟨span, hv, -⟩ | ⟨hv, hrun⟩ | ⟨misuse, hv, -⟩⟩ := run_attempt hrun
  · cases (Rule.at_of_apply hg hplain h hu hv).1
  · obtain ⟨-, -, hat⟩ := Rule.at_of_apply hg hplain h hu hv
    rw [hnoMatch fuel v o t (hat rfl) hrun, hrule fuel u _ v hu hv, Nat.max_assoc]
  · cases (Rule.at_of_apply hg hplain h hu hv).1

theorem sees_attempt_failed {misuse : Misuse} (h : rule.ComesTo g input p (.failed misuse)) :
    (attempt rule onMatch onNoMatch).Sees g input p e := by
  intro fuel u o t hu hrun
  obtain ⟨v, ⟨span, hv, -⟩ | ⟨hv, -⟩ | ⟨misuse, hv, rfl, rfl⟩⟩ := run_attempt hrun
  · cases (Rule.at_of_apply hg hplain h hu hv).1
  · cases (Rule.at_of_apply hg hplain h hu hv).1
  · exact hrule fuel u _ t hu hv

/-- Where nothing is read after the application, the attempt reads as far as the rule. -/
theorem sees_attempt_of_blind {o : Outcome} (h : rule.ComesTo g input p o)
    (hmatch : ∀ m, o = .matched ⟨p, m⟩ → (onMatch ⟨p, m⟩).Sees g input m 0)
    (hnoMatch : onNoMatch.Sees g input p 0) :
    (attempt rule onMatch onNoMatch).Sees g input p e := by
  cases o with
  | matched span =>
    obtain rfl := h.start_eq span rfl
    simpa using sees_attempt_matched hg hplain hrule h (hmatch _ rfl)
  | noMatch => simpa using sees_attempt_noMatch hg hplain hrule h hnoMatch
  | failed misuse => exact sees_attempt_failed hg hplain hrule h

end Attempt

end Script

/-! ### Rules -/

namespace Rule

variable [Symbol α] {g : Grammar (Rule α)} {input : List α} {p m e e' : Nat} {rule : Rule α}
  {rest : List (Rule α)} {b : Bounds} {o : Outcome}

theorem sees_iff_script {c : Script (Rule α) α} (hc : ∀ fuel, rule.script g fuel = c) :
    rule.Sees g input p e ↔ c.Sees g input p e := by
  constructor
  · intro h fuel u o t hu hrun
    exact h (fuel + 1) u o t hu (by rw [apply_succ, hc]; exact hrun)
  · rintro h (_ | fuel) u o t hu hrun
    · cases hrun
    · rw [apply_succ, hc] at hrun
      exact h fuel u o t hu hrun

/-- What is left of a rule at a position reads as far as `e`: of a concatenation the rules still to be
applied, of a repetition the rounds still allowed, and any other rule itself. -/
def RestSees (g : Grammar (Rule α)) (input : List α) : Rule α → Nat → Nat → Prop
  | .concat rules, p, e => (Script.applyAll rules).Sees g input p e
  | .repetition b rule, p, e => (b.inOrder = false → e = 0) ∧
    ∀ (b₀ : Bounds) (count fuel : Nat), b₀.inOrder → b = b₀.after count →
      (Script.rounds b₀ rule fuel count).Sees g input p e
  | rule, p, e => rule.Sees g input p e

theorem RestSees.sees (h : RestSees g input rule p e) : rule.Sees g input p e := by
  cases rule with
  | concat rules => exact (sees_iff_script fun _ => rfl).mpr h.mark
  | repetition b rule =>
    obtain ⟨hout, hrounds⟩ := h
    rintro (_ | fuel) u o t hu hrun
    · cases hrun
    · simp only [apply_succ, script, Script.repetition] at hrun
      split at hrun
      · rename_i hb
        exact (hrounds b 0 fuel hb b.after_zero.symm).mark fuel u o t hu hrun
      · rename_i hb
        cases hrun
        rw [hout (by simpa using hb), Nat.max_zero]
  | symbol | oneOf | range | endOfInput | caseless | choice | optional | nonterminal | custom =>
    exact h

/-! ### Concatenations and repetitions, from the front -/

theorem restSees_nil : RestSees g input (.concat []) p 0 := Script.sees_accept

theorem restSees_full (hb : b.inOrder) (hmax : b.max = some 0) :
    RestSees g input (.repetition b rule) p 0 := by
  refine ⟨fun _ => rfl, ?_⟩
  rintro b₀ count (_ | fuel) - rfl
  · exact fun _ _ _ _ _ hrun => nomatch hrun
  · have hmore : ¬ b₀.allowMore count := fun hmore =>
      (Bounds.max_after_ne_zero_iff b₀ count).mpr hmore hmax
    rw [Script.rounds, if_neg hmore]
    exact Script.sees_endRounds

section Front

variable (hg : g.Plain) (hplain : rule.Plain) (hrule : rule.Sees g input p e)
include hg hplain hrule

theorem restSees_concat_cons (h : rule.ComesTo g input p (.matched ⟨p, m⟩))
    (hrest : RestSees g input (.concat rest) m e') :
    RestSees g input (.concat (rule :: rest)) p (max e e') :=
  Script.sees_attempt_matched hg hplain hrule h hrest

theorem restSees_concat_else (h : rule.ComesTo g input p o) (ho : ∀ span, o ≠ .matched span) :
    RestSees g input (.concat (rule :: rest)) p e :=
  Script.sees_attempt_of_blind hg hplain hrule h (fun _ hm => absurd hm (ho _)) Script.sees_reject

theorem restSees_round (hb : b.inOrder) (hmax : b.max ≠ some 0)
    (h : rule.ComesTo g input p (.matched ⟨p, m⟩)) (hm : m ≠ p)
    (hrest : RestSees g input (.repetition (b.after 1) rule) m e') :
    RestSees g input (.repetition b rule) p (max e e') := by
  refine ⟨fun hout => by simp [hb] at hout, ?_⟩
  rintro b₀ count (_ | fuel) hb₀ rfl
  · exact fun _ _ _ _ _ hrun => nomatch hrun
  · rw [Script.rounds, if_pos ((Bounds.max_after_ne_zero_iff b₀ count).mp hmax)]
    refine Script.sees_attempt_matched hg hplain hrule h ?_
    have hempty : ¬ (⟨p, m⟩ : Span).isEmpty := by simpa using hm.symm
    rw [if_neg hempty]
    exact hrest.2 b₀ (count + 1) fuel hb₀ (Bounds.after_after b₀ count 1)

/-- A round that is the last one, whatever it comes to. -/
theorem restSees_lastRound (hb : b.inOrder) (hmax : b.max ≠ some 0) (h : rule.ComesTo g input p o)
    (ho : ∀ m, o = .matched ⟨p, m⟩ → m = p) : RestSees g input (.repetition b rule) p e := by
  refine ⟨fun hout => by simp [hb] at hout, ?_⟩
  rintro b₀ count (_ | fuel) hb₀ rfl
  · exact fun _ _ _ _ _ hrun => nomatch hrun
  · rw [Script.rounds, if_pos ((Bounds.max_after_ne_zero_iff b₀ count).mp hmax)]
    refine Script.sees_attempt_of_blind hg hplain hrule h (fun m hm => ?_) Script.sees_endRounds
    obtain rfl := ho m hm
    simpa using Script.sees_endRounds

theorem sees_optional (h : rule.ComesTo g input p o) : rule.optional.Sees g input p e := by
  refine (sees_iff_script fun _ => rfl).mpr fun fuel u o' t hu hrun => ?_
  exact Script.sees_attempt_of_blind hg hplain hrule h (fun _ _ => Script.sees_answer _)
    (Script.sees_answer _) fuel u o' t hu hrun

end Front

/-! ### Any rule -/

/-- By induction on the evaluation. -/
theorem exists_restSees (hg : g.Plain) (h : rule.ComesTo g input p o) :
    rule.Plain → ∃ e, RestSees g input rule p e := by
  induction h with
  | symbol | symbolElse | oneOf | oneOfElse | range | rangeElse =>
    exact fun _ => ⟨_, (sees_iff_script fun _ => rfl).mpr (Script.sees_acceptIf _)⟩
  | atEnd | beforeEnd =>
    exact fun _ => ⟨_, (sees_iff_script fun _ => rfl).mpr Script.sees_endOfInput⟩
  | @caseless expected p | @caselessElse expected p =>
    intro _
    obtain ⟨e, he⟩ : ∃ e, (Script.acceptAll (expected.map Symbol.sameButCase)).Sees g input p e :=
      Script.exists_sees_acceptAll _ p
    exact ⟨e, (sees_iff_script fun _ => rfl).mpr he.mark⟩
  | concatNil => exact fun _ => ⟨0, restSees_nil⟩
  | concatCons hfirst _ ihfirst ihrest =>
    intro hplain
    obtain ⟨hplain₁, hplain₂⟩ := hplain.of_concat_cons
    obtain ⟨e, he⟩ := ihfirst hplain₁
    obtain ⟨e', he'⟩ := ihrest hplain₂
    exact ⟨_, restSees_concat_cons hg hplain₁ he.sees hfirst he'⟩
  | concatElse hfirst ho ihfirst =>
    intro hplain
    have hplain₁ := hplain.of_concat_cons.1
    obtain ⟨e, he⟩ := ihfirst hplain₁
    exact ⟨e, restSees_concat_else hg hplain₁ he.sees hfirst ho⟩
  | choiceNil => exact fun _ => ⟨0, (sees_iff_script fun _ => rfl).mpr (Script.sees_answer _)⟩
  | @choiceFirst first rest p o hfirst ho ihfirst =>
    intro hplain
    have hplain₁ := hplain.of_choice_cons.1
    obtain ⟨e, he⟩ := ihfirst hplain₁
    refine ⟨e, (sees_iff_script (c := Script.choice (first :: rest)) fun _ => rfl).mpr ?_⟩
    cases o with
    | matched span =>
      obtain rfl := hfirst.start_eq span rfl
      have hattempt : (Script.choice (first :: rest)).Sees g input span.start (max e 0) :=
        Script.sees_attempt_matched hg hplain₁ he.sees hfirst (Script.sees_answer _)
      simpa using hattempt
    | noMatch => exact absurd rfl ho
    | failed misuse => exact Script.sees_attempt_failed hg hplain₁ he.sees hfirst
  | choiceNext hfirst _ ihfirst ihrest =>
    intro hplain
    obtain ⟨hplain₁, hplain₂⟩ := hplain.of_choice_cons
    obtain ⟨e, he⟩ := ihfirst hplain₁
    obtain ⟨e', he'⟩ := ihrest hplain₂
    refine ⟨max e e', (sees_iff_script fun _ => rfl).mpr ?_⟩
    exact Script.sees_attempt_noMatch hg hplain₁ he.sees hfirst ((sees_iff_script fun _ => rfl).mp he')
  | optional hrule _ ih | optionalElse hrule ih =>
    intro hplain
    have hplain₁ := composed_optional_iff.mp hplain
    obtain ⟨e, he⟩ := ih hplain₁
    exact ⟨e, sees_optional hg hplain₁ he.sees hrule⟩
  | @outOfOrder b rule p hb =>
    refine fun _ => ⟨0, fun _ => rfl, ?_⟩
    rintro b₀ count fuel hb₀ rfl
    simp [Bounds.inOrder_after hb₀ count] at hb
  | full hb hmax => exact fun _ => ⟨0, restSees_full hb hmax⟩
  | round hb hmax hrule hm _ ihrule ihrest =>
    intro hplain
    have hplain₁ := composed_repetition_iff.mp hplain
    obtain ⟨e, he⟩ := ihrule hplain₁
    obtain ⟨e', he'⟩ := ihrest (.repetition _ hplain₁)
    exact ⟨_, restSees_round hg hplain₁ he.sees hb hmax hrule hm he'⟩
  | emptyRound hb hmax hrule ihrule | enough hb hmax hrule _ ihrule | tooFew hb hmax hrule _ ihrule
  | roundFails hb hmax hrule ihrule =>
    intro hplain
    have hplain₁ := composed_repetition_iff.mp hplain
    obtain ⟨e, he⟩ := ihrule hplain₁
    refine ⟨e, restSees_lastRound hg hplain₁ he.sees hb hmax hrule ?_⟩
    intro m hm
    cases hm <;> rfl
  | @body n body p o hb _ ih =>
    intro _
    obtain ⟨e, he⟩ := ih (hg _ _ hb)
    refine ⟨e, ?_⟩
    rintro (_ | fuel) u o t hu hrun
    · cases hrun
    · simp only [apply_succ, script, hb] at hrun
      exact he.sees fuel u o t hu (apply_of_run_apply hrun)
  | @undefined n p hb =>
    intro _
    refine ⟨0, ?_⟩
    rintro (_ | fuel) u o t hu hrun
    · cases hrun
    · simp only [apply_succ, script, hb] at hrun
      cases hrun
      exact (Nat.max_zero _).symm

end Rule

end Abnf
