import Abnf.Misuse
import Abnf.Record

/-!
# Abnf.Tree.Trial — a result, and what was reported on the way to it

A trial ends with a value, is given up for a misuse, or comes to no end within the fuel it was given.
In sequence, reports are kept in order and the first misuse is final.
-/

namespace Abnf.Tree

/-- The end of a computation that can report, be given up, or run out of fuel. -/
inductive Trial (β : Type) where
  /-- A value, after these reports. -/
  | done (value : β) (records : List Record)
  /-- Given up, after these reports. -/
  | failed (misuse : Misuse) (records : List Record)
  /-- Out of fuel. -/
  | unfinished
  deriving DecidableEq, Repr

namespace Trial

variable {β γ : Type}

/-- The same end, with reports made before. -/
def after (records : List Record) : Trial β → Trial β
  | .done value later => .done value (records ++ later)
  | .failed misuse later => .failed misuse (records ++ later)
  | .unfinished => .unfinished

/-- Goes on with the value, if there is one. -/
def andThen (t : Trial β) (next : β → Trial γ) : Trial γ :=
  match t with
  | .done value records => (next value).after records
  | .failed misuse records => .failed misuse records
  | .unfinished => .unfinished

instance : Monad Trial where
  pure value := .done value []
  bind := andThen

/-- Gives up. -/
def fail (misuse : Misuse) : Trial β := .failed misuse []

/-- Reports an event. -/
def report (record : Record) : Trial Unit := .done () [record]

/-- A result that reports nothing. -/
def ofExcept : Except Misuse β → Trial β
  | .ok value => .done value []
  | .error misuse => .failed misuse []

@[simp] theorem after_nil (t : Trial β) : t.after [] = t := by cases t <;> rfl

theorem after_after (as bs : List Record) (t : Trial β) :
    (t.after bs).after as = t.after (as ++ bs) := by
  cases t <;> simp [after]

@[simp] theorem pure_eq (value : β) : (pure value : Trial β) = .done value [] := rfl

@[simp] theorem done_bind (value : β) (records : List Record) (next : β → Trial γ) :
    (Trial.done value records >>= next) = (next value).after records := rfl

@[simp] theorem failed_bind (misuse : Misuse) (records : List Record) (next : β → Trial γ) :
    (Trial.failed misuse records >>= next) = .failed misuse records := rfl

@[simp] theorem unfinished_bind (next : β → Trial γ) :
    (Trial.unfinished >>= next) = .unfinished := rfl

instance : LawfulMonad Trial := LawfulMonad.mk' Trial
  (by intro _ t; cases t <;> simp [Functor.map, andThen, after])
  (by intro _ _ value next; simp)
  (by
    intro _ _ _ t f g
    cases t with
    | done value records =>
      simp only [done_bind]
      cases f value with
      | done value later => exact (after_after ..).symm
      | failed => rfl
      | unfinished => rfl
    | failed => rfl
    | unfinished => rfl)

end Trial

end Abnf.Tree
