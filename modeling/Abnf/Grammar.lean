import Abnf.Misuse

/-!
# Abnf.Grammar — nonterminals and the rules they stand for

A nonterminal can be placed in rules, its own body included, before it is defined; that is how
recursive rules are written.  A grammar gives each of its nonterminals at most one body, and a body
once given stays.
-/

namespace Abnf

/-- A named placeholder for a rule.  Its number tells it from others of the same name. -/
structure Nonterminal where
  id : Nat
  name : String
  deriving DecidableEq, Repr

/-- How many nonterminals there are, and the bodies given so far, the latest first. -/
structure Grammar (ρ : Type) where
  created : Nat
  bodies : List (Nat × ρ)

namespace Grammar

variable {ρ : Type}

/-- The grammar without nonterminals. -/
def empty : Grammar ρ := ⟨0, []⟩

/-- Adds an undefined nonterminal. -/
def create (g : Grammar ρ) (name : String) : Nonterminal × Grammar ρ :=
  (⟨g.created, name⟩, { g with created := g.created + 1 })

/-- The body of a nonterminal, if it has been given. -/
def body? (g : Grammar ρ) (n : Nonterminal) : Option ρ := g.bodies.lookup n.id

/-- Whether a nonterminal has a body. -/
def isDefined (g : Grammar ρ) (n : Nonterminal) : Bool := (g.body? n).isSome

/-- Gives a nonterminal its body; only the first time succeeds. -/
def define (g : Grammar ρ) (n : Nonterminal) (body : ρ) : Except Misuse (Grammar ρ) :=
  if g.isDefined n then .error (.redefinedRule n.name)
  else .ok { g with bodies := (n.id, body) :: g.bodies }

/-- A new definition gives its nonterminal the body and leaves the others theirs. -/
theorem body?_define {g g' : Grammar ρ} {n : Nonterminal} {body : ρ}
    (h : g.define n body = .ok g') (m : Nonterminal) :
    g'.body? m = if m.id = n.id then some body else g.body? m := by
  unfold define at h
  split at h
  · cases h
  · cases h
    by_cases hm : m.id = n.id
    · simp [body?, hm]
    · have hb : (m.id == n.id) = false := by simpa using hm
      simp [body?, List.lookup_cons, hm, hb]

end Grammar

end Abnf
