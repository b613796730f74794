import Abnf.Rule
import Mathlib.Logic.Relation

/-!
# Abnf.Proofs.Reach — the scanners that come of using a scanner

`Scanner.Step` is one operation.  `Rule.moments` lists the scanner at every moment of an application,
whether or not the application comes to an end within its fuel, so that what custom rules see on the
way counts too.  `Scanner.Reaches s t`: operations on `s` and applications of any rules, carried on
after failures as well, lead to `t` or pass through it.

* `Rule.steps_of_apply`, `Scanner.Reaches.steps`: all of it is made of single steps, so that whatever
  each step keeps is kept.
-/

namespace Abnf

variable {ρ α : Type}

namespace Scanner

/-- One operation, failed ones included, or a report. -/
inductive Step : Scanner α → Scanner α → Prop
  | peek (s : Scanner α) : Step s s.peek.2
  | advance (s : Scanner α) : Step s s.advance.2
  | pushMark (s : Scanner α) : Step s s.pushMark
  | rollback (s : Scanner α) : Step s s.rollback.2
  | commit (s : Scanner α) : Step s s.commit.2
  | report (s : Scanner α) (record : Record) : Step s (s.report record)

abbrev Steps : Scanner α → Scanner α → Prop := Relation.ReflTransGen Step

theorem Steps.of_step {s t u : Scanner α} (h : Step s t) (h' : Steps t u) : Steps s u :=
  Relation.ReflTransGen.head h h'

/-- What a single step keeps, any number of them keeps. -/
theorem Steps.keeps {P : Scanner α → Prop} (hP : ∀ s t, Step s t → P s → P t) {s t : Scanner α}
    (h : Steps s t) (hs : P s) : P t := by
  induction h with
  | refl => exact hs
  | tail _ hlast ih => exact hP _ _ hlast ih

/-- The first moment is the scanner itself, and the others come after a step. -/
theorem Steps.of_mem_cons {s t u : Scanner α} {later : List (Scanner α)} (ht : t ∈ s :: later)
    (hstep : Step s u) (hlater : t ∈ later → Steps u t) : Steps s t := by
  rcases List.mem_cons.mp ht with rfl | ht
  · exact .refl
  · exact .of_step hstep (hlater ht)

end Scanner

open Scanner

/-! ### Scripts -/

namespace Script

variable {applyRule : ρ → Scanner α → Option (Outcome × Scanner α)}
  {momentsOf : ρ → Scanner α → List (Scanner α)}

/-- The scanner at every moment of a run, given the moments of the applications in it. -/
def moments (applyRule : ρ → Scanner α → Option (Outcome × Scanner α))
    (momentsOf : ρ → Scanner α → List (Scanner α)) : Script ρ α → Scanner α → List (Scanner α)
  | .answer _, s => [s]
  | .peek next, s => s :: (next s.peek.1).moments applyRule momentsOf s.peek.2
  | .advance next, s => s :: (next s.advance.1).moments applyRule momentsOf s.advance.2
  | .mark next, s => s :: next.moments applyRule momentsOf s.pushMark
  | .rollback next, s => s :: (next s.rollback.1).moments applyRule momentsOf s.rollback.2
  | .commit next, s => s :: (next s.commit.1).moments applyRule momentsOf s.commit.2
  | .inspect next, s => (next s.view).moments applyRule momentsOf s
  | .report record next, s => s :: next.moments applyRule momentsOf (s.report record)
  | .apply rule next, s =>
    momentsOf rule s ++
      match applyRule rule s with
      | none => []
      | some (outcome, t) => (next outcome).moments applyRule momentsOf t
  | .unfinished, s => [s]

/-- The last moment of a run is the scanner it ends with. -/
theorem mem_moments_of_run (c : Script ρ α) : ∀ (s : Scanner α) (o : Outcome) (t : Scanner α),
    c.run applyRule s = some (o, t) → t ∈ c.moments applyRule momentsOf s := by
  induction c with
  | answer outcome =>
    intro s o t h
    cases h
    exact List.mem_singleton_self _
  | peek next ih => exact fun s o t h => List.mem_cons_of_mem _ (ih _ _ _ _ h)
  | advance next ih => exact fun s o t h => List.mem_cons_of_mem _ (ih _ _ _ _ h)
  | mark next ih => exact fun s o t h => List.mem_cons_of_mem _ (ih _ _ _ h)
  | rollback next ih => exact fun s o t h => List.mem_cons_of_mem _ (ih _ _ _ _ h)
  | commit next ih => exact fun s o t h => List.mem_cons_of_mem _ (ih _ _ _ _ h)
  | inspect next ih => exact fun s o t h => ih _ _ _ _ h
  | report record next ih => exact fun s o t h => List.mem_cons_of_mem _ (ih _ _ _ h)
  | apply rule next ih =>
    intro s o t h
    simp only [run] at h
    cases ha : applyRule rule s with
    | none => simp [ha] at h
    | some x =>
      rw [ha] at h
      simp only [moments, ha]
      exact List.mem_append_right _ (ih _ _ _ _ h)
  | unfinished => exact fun s o t h => nomatch h

theorem steps_of_mem_moments (hm : ∀ r s t, t ∈ momentsOf r s → Steps s t)
    (ha : ∀ r s o t, applyRule r s = some (o, t) → Steps s t) (c : Script ρ α) :
    ∀ (s t : Scanner α), t ∈ c.moments applyRule momentsOf s → Steps s t := by
  induction c with
  | answer outcome =>
    intro s t h
    rw [List.mem_singleton.mp h]
  | peek next ih => exact fun s t h => .of_mem_cons h (.peek s) (ih _ _ _)
  | advance next ih => exact fun s t h => .of_mem_cons h (.advance s) (ih _ _ _)
  | mark next ih => exact fun s t h => .of_mem_cons h (.pushMark s) (ih _ _)
  | rollback next ih => exact fun s t h => .of_mem_cons h (.rollback s) (ih _ _ _)
  | commit next ih => exact fun s t h => .of_mem_cons h (.commit s) (ih _ _ _)
  | inspect next ih => exact fun s t h => ih _ _ _ h
  | report record next ih => exact fun s t h => .of_mem_cons h (.report s record) (ih _ _)
  | apply rule next ih =>
    intro s t h
    rw [moments, List.mem_append] at h
    rcases h with h | h
    · exact hm _ _ _ h
    · cases hr : applyRule rule s with
      | none => simp [hr] at h
      | some x =>
        rw [hr] at h
        exact (ha _ _ _ _ hr).trans (ih _ _ _ h)
  | unfinished =>
    intro s t h
    rw [List.mem_singleton.mp h]

theorem steps_of_run (ha : ∀ r s o t, applyRule r s = some (o, t) → Steps s t) (c : Script ρ α)
    {s t : Scanner α} {o : Outcome} (h : c.run applyRule s = some (o, t)) : Steps s t := by
  have hmem : t ∈ c.moments applyRule (fun r s => (applyRule r s).toList.map (·.2)) s :=
    mem_moments_of_run c s o t h
  refine steps_of_mem_moments (fun r s t ht => ?_) ha c s t hmem
  obtain ⟨x, hx, rfl⟩ := List.mem_map.mp ht
  exact ha r s x.1 x.2 (by simpa using hx)

end Script

/-! ### Rules -/

namespace Rule

variable [Symbol α] (g : Grammar (Rule α))

/-- The scanner at every moment of an application, for as long as the fuel lasts. -/
def moments : Nat → Rule α → Scanner α → List (Scanner α)
  | 0, _, s => [s]
  | fuel + 1, rule, s => (rule.script g fuel).moments (apply g fuel) (moments fuel) s

theorem mem_moments_of_apply {fuel : Nat} {rule : Rule α} {s t : Scanner α} {o : Outcome}
    (h : rule.apply g fuel s = some (o, t)) : t ∈ rule.moments g fuel s := by
  cases fuel with
  | zero => cases h
  | succ fuel => exact Script.mem_moments_of_run _ _ _ _ h

theorem steps_of_mem_moments {fuel : Nat} {rule : Rule α} {s t : Scanner α}
    (h : t ∈ rule.moments g fuel s) : Steps s t := by
  induction fuel generalizing rule s t with
  | zero => rw [List.mem_singleton.mp h]
  | succ fuel ih =>
    refine Script.steps_of_mem_moments (fun r s t => ih) (fun r s o t hr => ?_) _ _ _ h
    exact ih (mem_moments_of_apply g hr)

theorem steps_of_apply {fuel : Nat} {rule : Rule α} {s t : Scanner α} {o : Outcome}
    (h : rule.apply g fuel s = some (o, t)) : Steps s t :=
  steps_of_mem_moments g (mem_moments_of_apply g h)

end Rule

/-! ### Arbitrary use -/

namespace Scanner

variable [Symbol α]

/-- What comes of any use of a scanner: of operations, and of applications of any rules of any
grammars, whose every moment counts. -/
inductive Reaches (s : Scanner α) : Scanner α → Prop
  | refl : Reaches s s
  | step {t u : Scanner α} (h : Reaches s t) (hstep : Step t u) : Reaches s u
  | apply {t u : Scanner α} (h : Reaches s t) (g : Grammar (Rule α)) (fuel : Nat) (rule : Rule α)
      (hu : u ∈ rule.moments g fuel t) : Reaches s u

theorem Reaches.trans {s t u : Scanner α} (h : Reaches s t) (h' : Reaches t u) : Reaches s u := by
  induction h' with
  | refl => exact h
  | step _ hstep ih => exact ih.step hstep
  | apply _ g fuel rule hu ih => exact ih.apply g fuel rule hu

theorem Reaches.steps {s t : Scanner α} (h : Reaches s t) : Steps s t := by
  induction h with
  | refl => exact .refl
  | step _ hstep ih => exact ih.tail hstep
  | apply _ g fuel rule hu ih => exact ih.trans (Rule.steps_of_mem_moments g hu)

end Scanner

end Abnf
