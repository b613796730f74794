import Abnf.Parse

/-!
# Abnf.Rule.Fuel — more fuel keeps a finished answer

Fuel only decides whether an application comes to an end, never to which one.  The argument is made
for scripts first: what finishes over one way of applying rules finishes alike over every way that
extends it.  Main statements: `Rule.apply_mono` and `Rule.parse_mono`.
-/

namespace Abnf

variable {ρ α : Type}

/-- Every application that `p` finishes, `q` finishes with the same answer. -/
def Extends (p q : ρ → Scanner α → Option (Outcome × Scanner α)) : Prop :=
  ∀ r s x, p r s = some x → q r s = some x

namespace Script

variable {p q : ρ → Scanner α → Option (Outcome × Scanner α)}

theorem run_mono (h : Extends p q) (c : Script ρ α) :
    ∀ s x, c.run p s = some x → c.run q s = some x := by
  induction c with
  | answer outcome => exact fun _ _ hx => hx
  | peek next ih => exact fun _ _ => ih _ _ _
  | advance next ih => exact fun _ _ => ih _ _ _
  | mark next ih => exact fun _ _ => ih _ _
  | rollback next ih => exact fun _ _ => ih _ _ _
  | commit next ih => exact fun _ _ => ih _ _ _
  | inspect next ih => exact fun _ _ => ih _ _ _
  | report record next ih => exact fun _ _ => ih _ _
  | apply rule next ih =>
    intro s x hx
    simp only [run] at hx ⊢
    cases hp : p rule s with
    | none => simp [hp] at hx
    | some y =>
      rw [hp] at hx
      rw [h _ _ _ hp]
      exact ih _ _ _ hx
  | unfinished => exact fun _ _ hx => nomatch hx

theorem rounds_mono (h : Extends p q) (bounds : Bounds) (rule : ρ) {n m : Nat} (hnm : n ≤ m) :
    ∀ count s x, (rounds bounds rule n count).run p s = some x →
      (rounds bounds rule m count).run q s = some x := by
  induction n generalizing m with
  | zero => exact fun _ _ _ hx => nomatch hx
  | succ n ih =>
    obtain ⟨m, rfl⟩ : ∃ k, m = k + 1 := ⟨m - 1, by omega⟩
    intro count s x hx
    simp only [rounds] at hx ⊢
    split at hx
    · rename_i hc
      rw [if_pos hc]
      simp only [attempt, run] at hx ⊢
      cases hp : p rule s with
      | none => simp [hp] at hx
      | some y =>
        obtain ⟨outcome, s'⟩ := y
        rw [hp] at hx
        rw [h _ _ _ hp]
        cases outcome with
        | matched span =>
          simp only at hx ⊢
          split at hx
          · rename_i he
            rw [if_pos he]
            exact run_mono h _ _ _ hx
          · rename_i he
            rw [if_neg he]
            exact ih (by omega) _ _ _ hx
        | noMatch => exact run_mono h _ _ _ hx
        | failed misuse => exact hx
    · rename_i hc
      rw [if_neg hc]
      exact run_mono h _ _ _ hx

end Script

namespace Rule

variable [Symbol α] (g : Grammar (Rule α))

/-- An application that finishes finishes alike with more fuel. -/
theorem apply_mono {n m : Nat} (hnm : n ≤ m) :
    Extends (apply g n) (apply g m) := by
  induction n generalizing m with
  | zero => exact fun _ _ _ hx => nomatch hx
  | succ n ih =>
    obtain ⟨m, rfl⟩ : ∃ k, m = k + 1 := ⟨m - 1, by omega⟩
    intro r s x hx
    have h := ih (m := m) (by omega)
    simp only [apply_succ] at hx ⊢
    cases r with
    | repetition bounds rule =>
      simp only [script, Script.repetition] at hx ⊢
      split at hx
      · rename_i hb
        rw [if_pos hb]
        exact Script.rounds_mono h bounds rule (by omega) _ _ _ hx
      · rename_i hb
        rw [if_neg hb]
        exact hx
    | _ => exact Script.run_mono h _ _ _ hx

/-- A parse that finishes finishes alike with more fuel. -/
theorem parse_mono {n m : Nat} (hnm : n ≤ m) {reporting : Bool} {rule : Rule α} {source : Source α}
    {x : Answer α × Scanner α} (h : rule.parse g n reporting source = some x) :
    rule.parse g m reporting source = some x := by
  unfold parse at h ⊢
  cases ha : rule.apply g n (Scanner.ofSource source) with
  | none => simp [ha] at h
  | some y =>
    rw [ha] at h
    rw [apply_mono g hnm _ _ _ ha]
    exact h

end Rule

end Abnf
