import Abnf.Parse
import Abnf.Proofs.Reach
import Mathlib.Data.List.Forall2

/-!
# Abnf.Proofs.Recoding — other symbols in the place of those that are read

The operations of a scanner move symbols and do not look at them.  So a scanner whose symbols, buffered
and to come, are all recoded does the same, symbol for symbol (`Scanner.peek_map` and the lemmas beside
it).  What is done for a symbol is up to the scripts: `Script.Recoded f R c d` says that `d` goes on for
the code of a symbol as `c` goes on for the symbol, and applies rules that are related to those that `c`
applies.  Of the combinators it only takes that their tests answer the same for a symbol and its code.

* `Script.Recoded.run`, `Script.Recoded.moments`: a recoded script over a recoded scanner, to its end
  and at every moment.
-/

namespace Abnf

variable {ρ σ α β : Type} {f : α → β}

/-- Two images of one list, element by element. -/
theorem forall₂_map_map {β γ : Type} {R : β → γ → Prop} {f : α → β} {g : α → γ} {l : List α}
    (h : ∀ a ∈ l, R (f a) (g a)) : List.Forall₂ R (l.map f) (l.map g) := by
  rw [List.forall₂_map_left_iff, List.forall₂_map_right_iff, List.forall₂_same]
  exact h

/-! ### Sources -/

/-- The read with its symbols recoded. -/
def Read.map (f : α → β) : Read α → Read β
  | .data symbols => .data (symbols.map f)
  | .failed error => .failed error
  | .interrupted => .interrupted

/-- The source with its symbols recoded; ends of the input and failures stay where they are. -/
def Source.map (f : α → β) (source : Source α) : Source β :=
  ⟨source.delivered.map f, source.reads.map (Read.map f)⟩

/-- The pull with its symbol and the source behind it recoded. -/
def Pulled.map (f : α → β) : Pulled α → Pulled β
  | .symbol a rest => .symbol (f a) (rest.map f)
  | .endOfInput rest => .endOfInput (rest.map f)
  | .failed error rest => .failed error (rest.map f)

namespace Source

theorem pullReads_map (f : α → β) (reads : List (Read α)) :
    pullReads (reads.map (Read.map f)) = (pullReads reads).map f := by
  fun_induction pullReads reads with
  | case1 | case2 | case3 | case4 => rfl
  | case5 rest ih => exact ih

theorem pull_map (f : α → β) (source : Source α) : (source.map f).pull = source.pull.map f := by
  obtain ⟨_ | ⟨a, more⟩, reads⟩ := source
  · exact pullReads_map f reads
  · rfl

end Source

/-! ### Scanners -/

/-- What can be seen of a scanner, with the symbols recoded. -/
def View.map (f : α → β) (view : View α) : View β := ⟨view.position, view.depth, view.buffer.map f⟩

namespace Scanner

/-- The scanner with all its symbols recoded, those that are buffered and those to come. -/
def map (f : α → β) (s : Scanner α) : Scanner β :=
  ⟨s.buffer.map f, s.source.map f, s.marks, s.position, s.records⟩

variable (f) (s : Scanner α)

@[simp] theorem size_buffer_map : (s.map f).buffer.size = s.buffer.size := Array.size_map

theorem peek_map : (s.map f).peek = (s.peek.1.map f, s.peek.2.map f) := by
  have hsource : (s.map f).source = s.source.map f := rfl
  by_cases hend : s.position = s.buffer.size
  · have hend' : (s.map f).position = (s.map f).buffer.size := by
      rw [size_buffer_map]
      exact hend
    simp only [peek, if_pos hend, if_pos hend', hsource, Source.pull_map]
    cases s.source.pull with
    | symbol a rest => exact Prod.ext rfl (by simp [map, Pulled.map])
    | endOfInput rest => rfl
    | failed error rest => rfl
  · have hend' : ¬ (s.map f).position = (s.map f).buffer.size := by
      rw [size_buffer_map]
      exact hend
    simp only [peek, if_neg hend, if_neg hend']
    exact Prod.ext (by simp [map]) rfl

theorem advance_map : (s.map f).advance = (s.advance.1, s.advance.2.map f) := by
  by_cases hlt : s.position < s.buffer.size
  · have hlt' : (s.map f).position < (s.map f).buffer.size := by
      rw [size_buffer_map]
      exact hlt
    simp only [advance, if_pos hlt, if_pos hlt']
    rfl
  · have hlt' : ¬ (s.map f).position < (s.map f).buffer.size := by
      rw [size_buffer_map]
      exact hlt
    simp only [advance, if_neg hlt, if_neg hlt']
    rfl

theorem pushMark_map : (s.map f).pushMark = s.pushMark.map f := rfl

theorem report_map (record : Record) : (s.map f).report record = (s.report record).map f := rfl

theorem rollback_map : (s.map f).rollback = (s.rollback.1, s.rollback.2.map f) := by
  obtain ⟨buffer, source, _ | ⟨mark, marks⟩, position, records⟩ := s <;> rfl

theorem commit_map : (s.map f).commit = (s.commit.1, s.commit.2.map f) := by
  obtain ⟨buffer, source, _ | ⟨mark, marks⟩, position, records⟩ := s <;> rfl

theorem view_map : (s.map f).view = s.view.map f := rfl

theorem slice_map (span : Span) : (s.map f).slice span = (s.slice span).map f := by
  simp [slice, map]

end Scanner

open Scanner

/-! ### Scripts -/

namespace Script

/-- The same operations with the same answers, symbols being recoded, and applications of related
rules. -/
inductive Recoded (f : α → β) (R : ρ → σ → Prop) : Script ρ α → Script σ β → Prop
  | answer (outcome : Outcome) : Recoded f R (.answer outcome) (.answer outcome)
  | peek {next : Option α → Script ρ α} {next' : Option β → Script σ β}
    (h : ∀ a?, Recoded f R (next a?) (next' (a?.map f))) : Recoded f R (.peek next) (.peek next')
  | advance {next : Except Misuse Span → Script ρ α} {next' : Except Misuse Span → Script σ β}
    (h : ∀ result, Recoded f R (next result) (next' result)) :
    Recoded f R (.advance next) (.advance next')
  | mark {next : Script ρ α} {next' : Script σ β} (h : Recoded f R next next') :
    Recoded f R (.mark next) (.mark next')
  | rollback {next : Except Misuse Unit → Script ρ α} {next' : Except Misuse Unit → Script σ β}
    (h : ∀ result, Recoded f R (next result) (next' result)) :
    Recoded f R (.rollback next) (.rollback next')
  | commit {next : Except Misuse Span → Script ρ α} {next' : Except Misuse Span → Script σ β}
    (h : ∀ result, Recoded f R (next result) (next' result)) :
    Recoded f R (.commit next) (.commit next')
  | inspect {next : View α → Script ρ α} {next' : View β → Script σ β}
    (h : ∀ view, Recoded f R (next view) (next' (view.map f))) :
    Recoded f R (.inspect next) (.inspect next')
  | report (record : Record) {next : Script ρ α} {next' : Script σ β} (h : Recoded f R next next') :
    Recoded f R (.report record next) (.report record next')
  | apply {r : ρ} {r' : σ} {next : Outcome → Script ρ α} {next' : Outcome → Script σ β}
    (hr : R r r') (h : ∀ outcome, Recoded f R (next outcome) (next' outcome)) :
    Recoded f R (.apply r next) (.apply r' next')
  | unfinished : Recoded f R .unfinished .unfinished

variable {R : ρ → σ → Prop} {c : Script ρ α} {d : Script σ β}

section Run

variable {p : ρ → Scanner α → Option (Outcome × Scanner α)}
  {q : σ → Scanner β → Option (Outcome × Scanner β)}
  (hpq : ∀ r r', R r r' → ∀ s, q r' (s.map f) = (p r s).map (Prod.map id (Scanner.map f)))
include hpq

/-- A recoded script comes to the same outcome and leaves the recoded scanner, or comes to no end
either. -/
theorem Recoded.run (h : Recoded f R c d) (s : Scanner α) :
    d.run q (s.map f) = (c.run p s).map (Prod.map id (Scanner.map f)) := by
  induction h generalizing s with
  | answer outcome => rfl
  | peek _ ih =>
    simp only [Script.run, peek_map]
    exact ih _ _
  | advance _ ih =>
    simp only [Script.run, advance_map]
    exact ih _ _
  | mark _ ih =>
    simp only [Script.run, pushMark_map]
    exact ih _
  | rollback _ ih =>
    simp only [Script.run, rollback_map]
    exact ih _ _
  | commit _ ih =>
    simp only [Script.run, commit_map]
    exact ih _ _
  | inspect _ ih =>
    simp only [Script.run, view_map]
    exact ih _ _
  | report record _ ih =>
    simp only [Script.run, report_map]
    exact ih _
  | @apply r r' next next' hr _ ih =>
    simp only [Script.run, hpq r r' hr s]
    cases p r s with
    | none => rfl
    | some x => exact ih x.1 x.2
  | unfinished => rfl

/-- At every moment the one scanner is the other with its symbols recoded. -/
theorem Recoded.moments {m : ρ → Scanner α → List (Scanner α)} {n : σ → Scanner β → List (Scanner β)}
    (hmn : ∀ r r', R r r' → ∀ s, n r' (s.map f) = (m r s).map (Scanner.map f))
    (h : Recoded f R c d) (s : Scanner α) :
    d.moments q n (s.map f) = (c.moments p m s).map (Scanner.map f) := by
  induction h generalizing s with
  | answer outcome => rfl
  | peek _ ih =>
    simp only [Script.moments, peek_map]
    exact congrArg _ (ih _ _)
  | advance _ ih =>
    simp only [Script.moments, advance_map]
    exact congrArg _ (ih _ _)
  | mark _ ih =>
    simp only [Script.moments, pushMark_map]
    exact congrArg _ (ih _)
  | rollback _ ih =>
    simp only [Script.moments, rollback_map]
    exact congrArg _ (ih _ _)
  | commit _ ih =>
    simp only [Script.moments, commit_map]
    exact congrArg _ (ih _ _)
  | inspect _ ih =>
    simp only [Script.moments, view_map]
    exact ih _ _
  | report record _ ih =>
    simp only [Script.moments, report_map]
    exact congrArg _ (ih _)
  | @apply r r' next next' hr _ ih =>
    simp only [Script.moments, hpq r r' hr s, hmn r r' hr s, List.map_append]
    cases p r s with
    | none => rfl
    | some x => exact congrArg _ (ih x.1 x.2)
  | unfinished => rfl

end Run

/-! ### Combinators -/

namespace Recoded

variable {rule : ρ} {rule' : σ} {rules : List ρ} {rules' : List σ}

theorem consume : Recoded f R (consume : Script ρ α) consume :=
  .advance fun result => by cases result <;> exact .answer _

theorem accept : Recoded f R (accept : Script ρ α) accept :=
  .commit fun result => by cases result <;> exact .answer _

theorem reject : Recoded f R (reject : Script ρ α) reject :=
  .rollback fun result => by cases result <;> exact .answer _

theorem attempt {onMatch : Span → Script ρ α} {onMatch' : Span → Script σ β}
    {onNoMatch : Script ρ α} {onNoMatch' : Script σ β} (hr : R rule rule')
    (hmatch : ∀ span, Recoded f R (onMatch span) (onMatch' span))
    (hnoMatch : Recoded f R onNoMatch onNoMatch') :
    Recoded f R (attempt rule onMatch onNoMatch) (attempt rule' onMatch' onNoMatch') := by
  refine .apply hr fun outcome => ?_
  cases outcome with
  | matched span => exact hmatch span
  | noMatch => exact hnoMatch
  | failed misuse => exact .answer _

theorem acceptIf {test : α → Bool} {test' : β → Bool} (h : ∀ a, test' (f a) = test a) :
    Recoded f R (acceptIf test) (acceptIf test') := by
  refine .peek fun a? => ?_
  cases a? with
  | none => exact .answer _
  | some a =>
    simp only [Option.map_some, h]
    split
    · exact consume
    · exact .answer _

theorem endOfInput : Recoded f R (endOfInput : Script ρ α) endOfInput := by
  refine .peek fun a? => ?_
  cases a? with
  | none => exact .inspect fun _ => .answer _
  | some a => exact .answer _

theorem acceptAll {tests : List (α → Bool)} {tests' : List (β → Bool)}
    (h : List.Forall₂ (fun test test' => ∀ a, test' (f a) = test a) tests tests') :
    Recoded f R (acceptAll tests) (acceptAll tests') := by
  induction h with
  | nil => exact accept
  | cons htest _ ih =>
    refine .peek fun a? => ?_
    cases a? with
    | none => exact reject
    | some a =>
      simp only [Option.map_some, htest]
      split
      · refine .advance fun result => ?_
        cases result with
        | ok span => exact ih
        | error misuse => exact .answer _
      · exact reject

theorem sequence (h : List.Forall₂ R rules rules') :
    Recoded f R (sequence rules : Script ρ α) (sequence rules') := by
  refine .mark ?_
  induction h with
  | nil => exact accept
  | cons hr _ ih => exact attempt hr (fun _ => ih) reject

theorem choice (h : List.Forall₂ R rules rules') :
    Recoded f R (choice rules : Script ρ α) (choice rules') := by
  induction h with
  | nil => exact .answer _
  | cons hr _ ih => exact attempt hr (fun _ => .answer _) ih

theorem optional (h : R rule rule') : Recoded f R (optional rule : Script ρ α) (optional rule') :=
  .inspect fun _ => attempt h (fun _ => .answer _) (.answer _)

theorem endRounds (bounds : Bounds) (count : Nat) :
    Recoded f R (endRounds bounds count : Script ρ α) (endRounds bounds count) := by
  unfold Script.endRounds
  split
  · exact .inspect fun _ => .report _ reject
  · exact accept

theorem rounds (h : R rule rule') (bounds : Bounds) (fuel : Nat) : ∀ count,
    Recoded f R (rounds bounds rule fuel count : Script ρ α) (rounds bounds rule' fuel count) := by
  induction fuel with
  | zero => exact fun _ => .unfinished
  | succ fuel ih =>
    intro count
    unfold Script.rounds
    split
    · refine attempt h (fun span => ?_) (endRounds _ _)
      split
      · exact endRounds _ _
      · exact ih _
    · exact endRounds _ _

theorem repetition (h : R rule rule') (fuel : Nat) (bounds : Bounds) :
    Recoded f R (repetition fuel bounds rule : Script ρ α) (repetition fuel bounds rule') := by
  unfold Script.repetition
  split
  · exact .mark (rounds h bounds fuel 0)
  · exact .answer _

end Recoded

end Script

end Abnf
