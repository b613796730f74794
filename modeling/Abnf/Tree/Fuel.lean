import Abnf.Tree.Congruence

/-!
# Abnf.Tree.Fuel — more fuel keeps a finished trial

Fuel only decides whether a trial comes to an end, never to which one.  Every combinator keeps the
order in which an unfinished trial lies below all others, and so does the application of rules.  Main
statements: `Rule.apply_mono` and `Rule.parse_mono`.
-/

namespace Abnf.Tree

/-- Unless `t` came to no end, `u` is the same end. -/
def Trial.Extends {β : Type} (t u : Trial β) : Prop := t = .unfinished ∨ t = u

/-- Every trial that `p` finishes, `q` finishes with the same end. -/
def Parser.Extends (p q : Parser) : Prop := ∀ input, (p input).Extends (q input)

theorem Trial.extends_congruence : Trial.Congruence Trial.Extends where
  refl t := .inr rfl
  bind {β γ t u f g} h hf := by
    rcases h with rfl | rfl
    · exact .inl rfl
    · cases t with
      | done value records =>
        simp only [done_bind]
        rcases hf value with h | h
        · rw [h]
          exact .inl rfl
        · rw [h]
          exact .inr rfl
      | failed misuse records => exact .inr rfl
      | unfinished => exact .inl rfl

namespace Rule

variable (g : Grammar Rule)

/-- An application that finishes finishes alike with more fuel. -/
theorem apply_mono {n m : Nat} (hnm : n ≤ m) (rule : Rule) :
    (rule.apply g n).Extends (rule.apply g m) := by
  induction n generalizing m rule with
  | zero => exact fun _ => .inl rfl
  | succ n ih =>
    obtain ⟨m, rfl⟩ : ∃ k, m = k + 1 := ⟨m - 1, by omega⟩
    have h := ih (m := m) (by omega)
    refine parser_congr Trial.extends_congruence h (fun n input => ?_) rule
    simp only [parser]
    split
    · exact h _ input
    · exact .inr rfl

/-- A parse that finishes finishes alike with more fuel. -/
theorem parse_mono {n m : Nat} (hnm : n ≤ m) (rule : Rule) :
    (rule.parse g n).Extends (rule.parse g m) :=
  fun input => Trial.extends_congruence.bind (apply_mono g hnm rule input) fun _ => .inr rfl

end Rule

end Abnf.Tree
