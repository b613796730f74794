import Abnf.Tree.Rule

/-!
# Abnf.Tree.Congruence — relations between trials that all combinators keep

A relation between trials that holds of a trial and itself, and that sequencing keeps, is kept by every
combinator: of related parts they make related parsers.  Rules are related if what their sub-rules are
applied to is, and the nonterminals are (`Rule.parser_congr`).
-/

namespace Abnf.Tree

/-- A relation between trials that sequencing keeps. -/
structure Trial.Congruence (R : ∀ {β : Type}, Trial β → Trial β → Prop) : Prop where
  refl : ∀ {β : Type} (t : Trial β), R t t
  bind : ∀ {β γ : Type} {t u : Trial β} {f g : β → Trial γ}, R t u → (∀ b, R (f b) (g b)) →
    R (t >>= f) (u >>= g)

namespace Parser

variable {R : ∀ {β : Type}, Trial β → Trial β → Prop} (hR : Trial.Congruence R)
include hR

theorem collect_congr {f g : Node → Trial (Option Node)} (h : ∀ n, R (f n) (g n))
    (nodes : List Node) : R (collect f nodes) (collect g nodes) := by
  induction nodes with
  | nil => exact hR.refl _
  | cons n rest ih => exact hR.bind (h n) fun _ => hR.bind ih fun _ => hR.refl _

variable {ρ : Type} {p q : ρ → Parser}

theorem extend_congr (h : ∀ r input, R (p r input) (q r input)) (key : String) (input : List UInt8)
    (rules : List ρ) (offset : Nat) :
    R (extend key input (rules.map p) offset) (extend key input (rules.map q) offset) := by
  induction rules generalizing offset with
  | nil => exact hR.refl _
  | cons r rest ih =>
    refine hR.bind (h r _) fun found => hR.bind (collect_congr hR (fun n => ?_) _) fun _ => hR.refl _
    exact hR.bind (hR.refl _) fun _ => hR.bind (ih _) fun _ => hR.refl _

theorem concat_congr (h : ∀ r input, R (p r input) (q r input)) (key : String) (rules : List ρ)
    (input : List UInt8) : R (concat key (rules.map p) input) (concat key (rules.map q) input) :=
  hR.bind (extend_congr hR h key input rules 0) fun _ => hR.refl _

theorem choice_congr (h : ∀ r input, R (p r input) (q r input)) (key : String) (rules : List ρ)
    (input : List UInt8) : R (choice key (rules.map p) input) (choice key (rules.map q) input) := by
  induction rules with
  | nil => exact hR.refl _
  | cons r rest ih => exact hR.bind (h r input) fun _ => hR.bind ih fun _ => hR.refl _

theorem steps_congr {p q : Parser} (h : ∀ input, R (p input) (q input)) (bounds : Bounds)
    (rest : List UInt8) (count : Nat) : R (steps bounds p rest count) (steps bounds q rest count) := by
  fun_induction steps bounds q rest count with
  | case1 rest count hb ih =>
    rw [steps.eq_def bounds p, if_pos hb]
    refine hR.bind (h rest) fun found => ?_
    split
    · exact hR.refl _
    · split
      · exact hR.refl _
      · split
        · rename_i hne hle
          exact hR.bind (ih _ hne hle) fun _ => hR.refl _
        · exact hR.refl _
  | case2 rest count hb =>
    rw [steps.eq_def bounds p, if_neg hb]
    exact hR.refl _

theorem repetition_congr {p q : Parser} (h : ∀ input, R (p input) (q input)) (key : String)
    (bounds : Bounds) (input : List UInt8) :
    R (repetition key bounds p input) (repetition key bounds q input) := by
  unfold repetition
  split
  · exact hR.bind (steps_congr hR h bounds input 0) fun _ => hR.refl _
  · exact hR.refl _

end Parser

/-- What a rule does is related if what its sub-rules and the nonterminals do is. -/
theorem Rule.parser_congr {R : ∀ {β : Type}, Trial β → Trial β → Prop} (hR : Trial.Congruence R)
    {g g' : Grammar Rule} {p q : Rule → Parser} (h : ∀ r input, R (p r input) (q r input))
    (hn : ∀ n input,
      R ((nonterminal n).parser g p input) ((nonterminal n).parser g' q input))
    (rule : Rule) (input : List UInt8) : R (rule.parser g p input) (rule.parser g' q input) := by
  cases rule with
  | concat key rules => exact Parser.concat_congr hR h key rules input
  | choice key rules => exact Parser.choice_congr hR h key rules input
  | repetition key bounds rule => exact Parser.repetition_congr hR (h rule) key bounds input
  | nonterminal n => exact hn n input
  | terminal | range | oneOf | custom => exact hR.refl _

end Abnf.Tree
