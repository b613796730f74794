import Abnf.Parse
import Abnf.Proofs.Input

/-!
# Abnf.Proofs.Exchange — one source in place of another

A scanner shows of its source only what pulls answer, and pulls only where the position is at the end of
the buffer.  So let `R k a b` say that with `k` symbols buffered the source `b` will do for `a`.  If that
is kept by every pull, as long as no more than `limit` symbols are buffered (`Source.Exchangeable`), then
scanners that differ in such sources only (`Scanner.Twin`) stay so, with the same answers.

* `Script.run_twin`: one case for each operation; only a look has to be thought about.
* `Rule.apply_twin`, `Rule.parse_twin`: applications and parses.
-/

namespace Abnf

variable {ρ α : Type}

/-! ### Sources -/

/-- Pulls with the same answer, that leave sources of which one will do for the other.  A symbol is one
more that is buffered. -/
inductive Pulled.Alike (R : Nat → Source α → Source α → Prop) (k : Nat) : Pulled α → Pulled α → Prop
  | symbol (symbol : α) {a b : Source α} (h : R (k + 1) a b) :
    Alike R k (.symbol symbol a) (.symbol symbol b)
  | endOfInput {a b : Source α} (h : R k a b) : Alike R k (.endOfInput a) (.endOfInput b)
  | failed (error : String) {a b : Source α} (h : R k a b) :
    Alike R k (.failed error a) (.failed error b)

/-- Pulls from related sources are alike, unless they answer a symbol beyond the limit. -/
def Source.Exchangeable (R : Nat → Source α → Source α → Prop) (limit : Nat) : Prop :=
  ∀ k a b, R k a b → (∀ symbol rest, a.pull = .symbol symbol rest → k < limit) →
    Pulled.Alike R k a.pull b.pull

variable {R : Nat → Source α → Source α → Prop} {limit : Nat}

/-! ### Scanners -/

namespace Scanner

/-- The same scanner over another source. -/
def withSource (s : Scanner α) (source : Source α) : Scanner α := { s with source := source }

/-- The same but for the source, which is a related one. -/
inductive Twin (R : Nat → Source α → Source α → Prop) (s : Scanner α) : Scanner α → Prop
  | intro {source : Source α} (h : R s.buffer.size s.source source) : Twin R s (s.withSource source)

variable {s t : Scanner α}

theorem twin_ofSource {a b : Source α} (h : R 0 a b) : Twin R (ofSource a) (ofSource b) :=
  .intro (s := ofSource a) h

namespace Twin

theorem symm (hR : ∀ k a b, R k a b → R k b a) (h : Twin R s t) : Twin R t s := by
  cases h with
  | @intro source h => exact .intro (s := s.withSource source) (hR _ _ _ h)

theorem eq_withSource (h : Twin R s t) : t = s.withSource t.source := by
  cases h
  rfl

theorem view_eq (h : Twin R s t) : t.view = s.view := by
  cases h
  rfl

theorem records_eq (h : Twin R s t) : t.records = s.records := by
  cases h
  rfl

theorem slice_eq (h : Twin R s t) (span : Span) : t.slice span = s.slice span := by
  cases h
  rfl

/-- A look pulls from both sources or from neither. -/
theorem peek (hR : Source.Exchangeable R limit) (h : Twin R s t)
    (hsize : s.peek.2.buffer.size ≤ limit) :
    t.peek.1 = s.peek.1 ∧ Twin R s.peek.2 t.peek.2 := by
  cases h with
  | @intro source h =>
    by_cases hend : s.position = s.buffer.size
    · have hpull := hR _ _ _ h fun symbol rest hsymbol => by
        simp only [Scanner.peek, if_pos hend, hsymbol, Array.size_push] at hsize
        omega
      have hend' : (s.withSource source).position = (s.withSource source).buffer.size := hend
      have hsource : (s.withSource source).source = source := rfl
      simp only [Scanner.peek, if_pos hend, if_pos hend', hsource]
      generalize s.source.pull = x, source.pull = y at hpull
      cases hpull with
      | symbol symbol h => exact ⟨rfl, .intro (by simpa using h)⟩
      | endOfInput h => exact ⟨rfl, .intro h⟩
      | failed error h => exact ⟨rfl, .intro h⟩
    · have hend' : ¬ (s.withSource source).position = (s.withSource source).buffer.size := hend
      simp only [Scanner.peek, if_neg hend, if_neg hend']
      exact ⟨rfl, .intro h⟩

theorem advance (h : Twin R s t) :
    t.advance.1 = s.advance.1 ∧ Twin R s.advance.2 t.advance.2 := by
  cases h with
  | @intro source h =>
    by_cases hlt : s.position < s.buffer.size
    · have hlt' : (s.withSource source).position < (s.withSource source).buffer.size := hlt
      rw [advance_of_lt hlt, advance_of_lt hlt']
      exact ⟨rfl, .intro h⟩
    · have hlt' : ¬ (s.withSource source).position < (s.withSource source).buffer.size := hlt
      simp only [Scanner.advance, if_neg hlt, if_neg hlt']
      exact ⟨rfl, .intro h⟩

theorem pushMark (h : Twin R s t) : Twin R s.pushMark t.pushMark := by
  cases h with
  | intro h => exact .intro (s := s.pushMark) h

theorem report (h : Twin R s t) (record : Record) : Twin R (s.report record) (t.report record) := by
  cases h with
  | intro h => exact .intro (s := s.report record) h

theorem rollback (h : Twin R s t) :
    t.rollback.1 = s.rollback.1 ∧ Twin R s.rollback.2 t.rollback.2 := by
  cases h with
  | @intro source h =>
    have hsame : (s.withSource source).marks = s.marks := rfl
    cases hm : s.marks with
    | nil =>
      simp only [Scanner.rollback, hsame, hm]
      exact ⟨rfl, .intro h⟩
    | cons mark marks =>
      rw [rollback_of_marks hm, rollback_of_marks (hsame.trans hm)]
      exact ⟨rfl, .intro h⟩

theorem commit (h : Twin R s t) : t.commit.1 = s.commit.1 ∧ Twin R s.commit.2 t.commit.2 := by
  cases h with
  | @intro source h =>
    have hsame : (s.withSource source).marks = s.marks := rfl
    cases hm : s.marks with
    | nil =>
      simp only [Scanner.commit, hsame, hm]
      exact ⟨rfl, .intro h⟩
    | cons mark marks =>
      rw [commit_of_marks hm, commit_of_marks (hsame.trans hm)]
      exact ⟨rfl, .intro h⟩

theorem finishMatch (h : Twin R s t) (reporting : Bool) (span : Span) :
    (t.finishMatch reporting span).1 = (s.finishMatch reporting span).1 ∧
      Twin R (s.finishMatch reporting span).2 (t.finishMatch reporting span).2 := by
  unfold Scanner.finishMatch
  rw [h.slice_eq]
  split
  · split
    · exact ⟨rfl, h.report _⟩
    · exact ⟨rfl, h⟩
  · exact ⟨rfl, h⟩

theorem finish (h : Twin R s t) (reporting : Bool) (o : Outcome) :
    (t.finish reporting o).1 = (s.finish reporting o).1 ∧
      Twin R (s.finish reporting o).2 (t.finish reporting o).2 := by
  have hdepth : t.depth = s.depth := by
    cases h
    rfl
  have hposition : t.position = s.position := by
    cases h
    rfl
  have hbuffer : t.buffer = s.buffer := by
    cases h
    rfl
  unfold Scanner.finish
  rw [hdepth, hposition, hbuffer]
  cases o with
  | failed misuse => exact ⟨rfl, h⟩
  | matched span =>
    dsimp only
    split
    · exact h.finishMatch reporting span
    · exact ⟨rfl, h⟩
  | noMatch =>
    dsimp only
    split
    · refine ⟨rfl, ?_⟩
      split
      · exact h.report _
      · exact h
    · exact ⟨rfl, h⟩

end Twin

theorem buffer_finish (s : Scanner α) (reporting : Bool) (o : Outcome) :
    (s.finish reporting o).2.buffer = s.buffer := by
  have hmatch : ∀ span, (s.finishMatch reporting span).2.buffer = s.buffer := by
    intro span
    unfold finishMatch
    split
    · split <;> rfl
    · rfl
  cases o with
  | failed misuse => rfl
  | matched span =>
    simp only [finish]
    split
    · exact hmatch span
    · rfl
  | noMatch =>
    simp only [finish]
    split
    · split <;> rfl
    · rfl

end Scanner

open Scanner

/-! ### Scripts -/

namespace Script

variable {applyRule : ρ → Scanner α → Option (Outcome × Scanner α)}

/-- An application to a scanner is one to its twin, if it ends within the limit. -/
def ExchangesSources (R : Nat → Source α → Source α → Prop) (limit : Nat)
    (applyRule : ρ → Scanner α → Option (Outcome × Scanner α)) : Prop :=
  ∀ r s t o u, Twin R s t → applyRule r s = some (o, u) → u.buffer.size ≤ limit →
    ∃ v, applyRule r t = some (o, v) ∧ Twin R u v

/-- A run that ends within the limit was within it all the time, since the buffer only grows. -/
theorem run_twin (hR : Source.Exchangeable R limit) (ha : ExchangesSources R limit applyRule)
    (hsteps : ∀ r s o t, applyRule r s = some (o, t) → Steps s t) (c : Script ρ α) :
    ∀ s t o u, Twin R s t → c.run applyRule s = some (o, u) → u.buffer.size ≤ limit →
      ∃ v, c.run applyRule t = some (o, v) ∧ Twin R u v := by
  induction c with
  | answer outcome =>
    intro s t o u h hrun _
    cases hrun
    exact ⟨t, rfl, h⟩
  | peek next ih =>
    intro s t o u h hrun hlimit
    have hsize := size_le_of_steps (steps_of_run hsteps (next s.peek.1) hrun)
    obtain ⟨hsame, htwin⟩ := h.peek hR (hsize.trans hlimit)
    simp only [run, hsame]
    exact ih _ _ _ _ _ htwin hrun hlimit
  | advance next ih =>
    intro s t o u h hrun hlimit
    simp only [run, h.advance.1]
    exact ih _ _ _ _ _ h.advance.2 hrun hlimit
  | mark next ih => exact fun s t o u h hrun hlimit => ih _ _ _ _ h.pushMark hrun hlimit
  | rollback next ih =>
    intro s t o u h hrun hlimit
    simp only [run, h.rollback.1]
    exact ih _ _ _ _ _ h.rollback.2 hrun hlimit
  | commit next ih =>
    intro s t o u h hrun hlimit
    simp only [run, h.commit.1]
    exact ih _ _ _ _ _ h.commit.2 hrun hlimit
  | inspect next ih =>
    intro s t o u h hrun hlimit
    simp only [run, h.view_eq]
    exact ih _ _ _ _ _ h hrun hlimit
  | report record next ih =>
    exact fun s t o u h hrun hlimit => ih _ _ _ _ (h.report record) hrun hlimit
  | apply rule next ih =>
    intro s t o u h hrun hlimit
    simp only [run] at hrun ⊢
    cases hr : applyRule rule s with
    | none => simp [hr] at hrun
    | some x =>
      obtain ⟨outcome, s'⟩ := x
      rw [hr] at hrun
      have hsize := size_le_of_steps (steps_of_run hsteps (next outcome) hrun)
      obtain ⟨t', ht, htwin⟩ := ha _ _ _ _ _ h hr (hsize.trans hlimit)
      rw [ht]
      exact ih _ _ _ _ _ htwin hrun hlimit
  | unfinished =>
    intro s t o u _ hrun
    cases hrun

end Script

/-! ### Rules and parses -/

namespace Rule

variable [Symbol α]

theorem apply_twin (hR : Source.Exchangeable R limit) (g : Grammar (Rule α)) (fuel : Nat) :
    Script.ExchangesSources R limit (apply g fuel) := by
  induction fuel with
  | zero => exact fun _ _ _ _ _ _ h => nomatch h
  | succ fuel ih =>
    exact fun r => Script.run_twin hR ih (fun _ _ _ _ => steps_of_apply g) (r.script g fuel)

/-- A parse of one source is a parse of the other, if it ends within the limit. -/
theorem parse_twin (hR : Source.Exchangeable R limit) {g : Grammar (Rule α)} {fuel : Nat}
    {reporting : Bool} {rule : Rule α} {a b : Source α} {answer : Answer α} {s : Scanner α}
    (h : R 0 a b) (hparse : rule.parse g fuel reporting a = some (answer, s))
    (hlimit : s.buffer.size ≤ limit) :
    ∃ t, rule.parse g fuel reporting b = some (answer, t) ∧ Twin R s t := by
  unfold parse at hparse ⊢
  cases hu : rule.apply g fuel (ofSource a) with
  | none => simp [hu] at hparse
  | some x =>
    obtain ⟨o, u⟩ := x
    rw [hu] at hparse
    have hfinish : u.finish reporting o = (answer, s) := Option.some.inj hparse
    have hsize : u.buffer.size ≤ limit := by
      rwa [← buffer_finish u reporting o, hfinish]
    obtain ⟨v, hv, htwin⟩ := apply_twin hR g fuel rule _ _ _ _ (twin_ofSource h) hu hsize
    obtain ⟨hsame, hend⟩ := htwin.finish reporting o
    rw [hfinish] at hsame hend
    refine ⟨(v.finish reporting o).2, ?_, hend⟩
    rw [hv]
    exact congrArg some (Prod.ext hsame rfl)

end Rule

end Abnf
