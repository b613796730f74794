import Abnf.Parse
import Abnf.Proofs.Bracket
import Abnf.Proofs.Input
import Abnf.Rule.Core
import Abnf.Rule.Routine

/-!
# Abnf.Proofs.Contract — rules keep the contract of application

Whatever the source does, a rule put together from the constructors keeps the contract, provided that
the custom scripts in it and in the grammar do.  Without custom scripts, the only failure is a
nonterminal that the rule leads to and that has no body.

* `Rule.apply_keepsContract`: the induction, over fuel and the form of the rule.
* `Rule.composed_contract`: the contract, the failures, and what follows for a parse.
-/

namespace Abnf

variable {α : Type}

open Scanner

/-! ### How rules are put together -/

namespace Rule

/-- Put together from the constructors, with custom scripts that satisfy `C`. -/
inductive Composed (C : Script (Rule α) α → Prop) : Rule α → Prop
  | symbol (expected : α) : Composed C (.symbol expected)
  | oneOf (candidates : List α) : Composed C (.oneOf candidates)
  | range (low high : α) : Composed C (.range low high)
  | endOfInput : Composed C .endOfInput
  | caseless (expected : List α) : Composed C (.caseless expected)
  | concat {rules : List (Rule α)} (h : ∀ r ∈ rules, Composed C r) : Composed C (.concat rules)
  | choice {rules : List (Rule α)} (h : ∀ r ∈ rules, Composed C r) : Composed C (.choice rules)
  | optional {rule : Rule α} (h : Composed C rule) : Composed C (.optional rule)
  | repetition (bounds : Bounds) {rule : Rule α} (h : Composed C rule) :
    Composed C (.repetition bounds rule)
  | nonterminal (n : Nonterminal) : Composed C (.nonterminal n)
  | custom {script : Script (Rule α) α} (h : C script) : Composed C (.custom script)

/-- Without custom scripts. -/
abbrev Plain : Rule α → Prop := Composed fun _ => False

attribute [simp] Composed.symbol Composed.oneOf Composed.range Composed.endOfInput Composed.caseless
  Composed.nonterminal

section Composed

variable {C : Script (Rule α) α → Prop} {rule : Rule α} {rules : List (Rule α)}

@[simp] theorem composed_concat_iff : Composed C (.concat rules) ↔ ∀ r ∈ rules, Composed C r := by
  constructor
  · rintro ⟨⟩
    assumption
  · exact .concat

@[simp] theorem composed_choice_iff : Composed C (.choice rules) ↔ ∀ r ∈ rules, Composed C r := by
  constructor
  · rintro ⟨⟩
    assumption
  · exact .choice

@[simp] theorem composed_optional_iff : Composed C (.optional rule) ↔ Composed C rule := by
  constructor
  · rintro ⟨⟩
    assumption
  · exact .optional

@[simp] theorem composed_repetition_iff {b : Bounds} :
    Composed C (.repetition b rule) ↔ Composed C rule := by
  constructor
  · rintro ⟨⟩
    assumption
  · exact .repetition b

@[simp] theorem composed_custom_iff {script : Script (Rule α) α} :
    Composed C (.custom script) ↔ C script := by
  constructor
  · rintro ⟨⟩
    assumption
  · exact .custom

theorem Composed.of_concat_cons {first : Rule α} {rest : List (Rule α)}
    (h : Composed C (.concat (first :: rest))) : Composed C first ∧ Composed C (.concat rest) := by
  simpa using h

theorem Composed.of_choice_cons {first : Rule α} {rest : List (Rule α)}
    (h : Composed C (.choice (first :: rest))) : Composed C first ∧ Composed C (.choice rest) := by
  simpa using h

@[simp] theorem composed_literal (expected : List α) : (literal expected).Composed C := by
  simp [literal]

end Composed

/-- The core rules have no custom scripts in them. -/
theorem plain_of_named? {name : String} {rule : Rule Char} (h : Core.named? name = some rule) :
    rule.Plain := by
  obtain ⟨before, behind, hcore, -⟩ := List.lookup_eq_some_iff.mp h
  have hmem : rule ∈ (before ++ (name, rule) :: behind).map Prod.snd := by simp
  rw [← hcore] at hmem
  simp only [List.map_cons, List.map_nil, List.mem_cons, List.not_mem_nil, or_false] at hmem
  rcases hmem with rfl | rfl | rfl | rfl | rfl | rfl | rfl | rfl | rfl | rfl | rfl | rfl | rfl | rfl |
    rfl | rfl <;>
    simp [Core.alpha, Core.bit, Core.char, Core.cr, Core.crlf, Core.ctl, Core.digit, Core.dquote,
      Core.hexdig, Core.htab, Core.lf, Core.lwsp, Core.octet, Core.sp, Core.vchar, Core.wsp,
      zeroOrMore]

/-- The nonterminals that a rule leads to, through the bodies of others as well. -/
inductive LeadsTo (g : Grammar (Rule α)) : Rule α → Nonterminal → Prop
  | nonterminal (n : Nonterminal) : LeadsTo g (.nonterminal n) n
  | body {n m : Nonterminal} {body : Rule α} (hb : g.body? n = some body) (h : LeadsTo g body m) :
    LeadsTo g (.nonterminal n) m
  | concat {rules : List (Rule α)} {r : Rule α} {n : Nonterminal} (hr : r ∈ rules)
    (h : LeadsTo g r n) : LeadsTo g (.concat rules) n
  | choice {rules : List (Rule α)} {r : Rule α} {n : Nonterminal} (hr : r ∈ rules)
    (h : LeadsTo g r n) : LeadsTo g (.choice rules) n
  | optional {rule : Rule α} {n : Nonterminal} (h : LeadsTo g rule n) :
    LeadsTo g (.optional rule) n
  | repetition {bounds : Bounds} {rule : Rule α} {n : Nonterminal} (h : LeadsTo g rule n) :
    LeadsTo g (.repetition bounds rule) n

end Rule

/-- All bodies are put together from the constructors, with custom scripts that satisfy `C`. -/
def Grammar.Composed (C : Script (Rule α) α → Prop) (g : Grammar (Rule α)) : Prop :=
  ∀ n body, g.body? n = some body → body.Composed C

abbrev Grammar.Plain : Grammar (Rule α) → Prop := Grammar.Composed fun _ => False

/-! ### The contract of rules -/

namespace Rule

variable [Symbol α] {g : Grammar (Rule α)}

/-- The failure of a nonterminal that a rule leads to and that has no body. -/
def Undefined (g : Grammar (Rule α)) (rule : Rule α) (misuse : Misuse) : Prop :=
  ∃ n, LeadsTo g rule n ∧ g.body? n = none ∧ misuse = .unresolvedRule n.name

/-- A custom script that keeps the contract and fails only in `E`, wherever it is carried out. -/
def Honours (g : Grammar (Rule α)) (E : Misuse → Prop) (c : Script (Rule α) α) : Prop :=
  ∀ fuel s o t, s.Ordered → c.run (apply g fuel) s = some (o, t) → Contract s o t ∧ o.FailsIn E

theorem apply_of_run_apply {fuel : Nat} {rule : Rule α} {s t : Scanner α} {o : Outcome}
    (h : (Script.apply rule .answer).run (apply g fuel) s = some (o, t)) :
    rule.apply g fuel s = some (o, t) := by
  simp only [Script.run] at h
  split at h
  · cases h
  · rename_i hx
    rw [hx, h]

/-- One case for each constructor: the combinators keep what their sub-rules do. -/
theorem apply_keepsContract {C : Script (Rule α) α → Prop} {E : Misuse → Prop}
    (hC : ∀ c, C c → Honours g E c) (hg : g.Composed C) :
    ∀ (fuel : Nat) (rule : Rule α), rule.Composed C →
      (∀ m, Undefined g rule m → E m) → Script.KeepsContract (apply g fuel) E rule
  | 0, _, _, _ => fun _ _ _ _ h => nomatch h
  | fuel + 1, rule, hrule, hE => by
    intro s o t hs h
    have ha : ∀ r s o t, apply g fuel r s = some (o, t) → Steps s t :=
      fun _ _ _ _ => steps_of_apply g
    have ih := apply_keepsContract hC hg fuel
    rw [apply_succ] at h
    cases hrule with
    | symbol => exact Script.acceptIf_contract ha hs h
    | oneOf => exact Script.acceptIf_contract ha hs h
    | range => exact Script.acceptIf_contract ha hs h
    | endOfInput => exact Script.endOfInput_contract ha hs h
    | caseless => exact Script.acceptRun_contract ha hs h
    | concat hr =>
      refine Script.sequence_contract ha hs (fun r hmem => ?_) h
      refine (ih r (hr r hmem) fun m hm => hE m ?_).keepsMarks
      obtain ⟨n, hn, hm⟩ := hm
      exact ⟨n, .concat hmem hn, hm⟩
    | choice hr =>
      refine Script.choice_contract ha _ s hs (fun r hmem => ?_) h
      refine ih r (hr r hmem) fun m hm => hE m ?_
      obtain ⟨n, hn, hm⟩ := hm
      exact ⟨n, .choice hmem hn, hm⟩
    | optional hr =>
      refine Script.optional_contract ha hs (ih _ hr fun m hm => hE m ?_) h
      obtain ⟨n, hn, hm⟩ := hm
      exact ⟨n, .optional hn, hm⟩
    | repetition bounds hr =>
      refine Script.repetition_contract ha hs (ih _ hr fun m hm => hE m ?_).keepsMarks h
      obtain ⟨n, hn, hm⟩ := hm
      exact ⟨n, .repetition hn, hm⟩
    | nonterminal n =>
      simp only [script] at h
      cases hb : g.body? n with
      | none =>
        rw [hb] at h
        cases h
        exact ⟨trivial, hE _ ⟨n, .nonterminal n, hb, rfl⟩⟩
      | some body =>
        rw [hb] at h
        refine ih body (hg n body hb) (fun m hm => hE m ?_) s o t hs (apply_of_run_apply h)
        obtain ⟨k, hk, hm⟩ := hm
        exact ⟨k, .body hb hk, hm⟩
    | custom hc => exact hC _ hc fuel s o t hs h

theorem plain_keepsContract (hg : g.Plain) {rule : Rule α} (hrule : rule.Plain) (fuel : Nat) :
    Script.KeepsContract (apply g fuel) (Undefined g rule) rule :=
  apply_keepsContract (fun _ hc => hc.elim) hg fuel rule hrule fun _ hm => hm

/-! ### Parses -/

omit [Symbol α] in
theorem slice_zero (s : Scanner α) (n : Nat) : s.slice ⟨0, n⟩ = s.buffer.toList.take n := by
  simp [slice, List.take_eq_take_iff]

/-- What a parse owes for its answer: a match is of the first symbols of the source, as many as the
rule consumed, and there is no failure but the rule's own. -/
def Exact (g : Grammar (Rule α)) (fuel : Nat) (rule : Rule α) (source : Source α) : Answer α → Prop
  | .matched symbols =>
    ∃ u, rule.apply g fuel (ofSource source) = some (.matched ⟨0, symbols.length⟩, u) ∧
      symbols = u.buffer.toList.take u.position ∧ symbols <+: source.contents
  | .noMatch => ∃ u, rule.apply g fuel (ofSource source) = some (.noMatch, u)
  | .failed m => ∃ u, rule.apply g fuel (ofSource source) = some (.failed m, u)
  | .noLength _ => False

/-- A parse with a rule that keeps the contract finds no mark left. -/
theorem exact_of_parse {E : Misuse → Prop} {fuel : Nat} {rule : Rule α}
    (hrule : Script.KeepsContract (apply g fuel) E rule) {reporting : Bool} {source : Source α}
    {answer : Answer α} {t : Scanner α}
    (h : rule.parse g fuel reporting source = some (answer, t)) :
    Exact g fuel rule source answer := by
  unfold parse at h
  cases ha : rule.apply g fuel (ofSource source) with
  | none => simp [ha] at h
  | some x =>
    obtain ⟨o, u⟩ := x
    have hu := (hrule _ _ _ (.ofSource source) ha).1
    have hin : u.buffer.toList ++ u.source.contents = source.contents :=
      contents_steps (steps_of_apply g ha)
    rw [ha] at h
    cases o with
    | failed m =>
      cases h
      exact ⟨_, ha⟩
    | noMatch =>
      have hdepth : u.depth = 0 := congrArg List.length hu.2.1
      simp only [finish, if_pos hdepth] at h
      cases h
      exact ⟨u, ha⟩
    | matched span =>
      have hdepth : u.depth = 0 := congrArg List.length hu.1
      obtain rfl : span = ⟨0, u.position⟩ := hu.span_eq
      have hsize : u.position ≤ u.buffer.size := hu.2.2.2.2.1
      have hlen : (u.slice ⟨0, u.position⟩).length = u.position := by
        simp [slice_zero, hsize]
      have hmatch : Exact g fuel rule source (.matched (u.slice ⟨0, u.position⟩)) := by
        refine ⟨u, by rw [hlen]; exact ha, slice_zero u _, ?_⟩
        rw [slice_zero, ← hin]
        exact (List.take_prefix _ _).trans (List.prefix_append _ _)
      simp only [finish, if_pos hdepth, finishMatch, Span.length?, Nat.zero_le, if_true] at h
      split at h <;> cases h <;> exact hmatch

/-- **The contract of application.**  Over custom scripts that keep the contract, every rule does,
from any scanner in order, whatever its source.  Without custom scripts, the only failure is of an
undefined nonterminal.  So a parse never fails for a mark that was left, and answers for a match
exactly the symbols that the rule consumed. -/
theorem composed_contract {rule : Rule α} (hg : g.Composed (Honours g fun _ => True))
    (hrule : rule.Composed (Honours g fun _ => True)) :
    (∀ fuel s o t, s.Ordered → rule.apply g fuel s = some (o, t) → Contract s o t) ∧
      (∀ fuel reporting source answer t, rule.parse g fuel reporting source = some (answer, t) →
        Exact g fuel rule source answer) ∧
      (g.Plain → rule.Plain →
        (∀ fuel s m t, s.Ordered → rule.apply g fuel s = some (.failed m, t) →
          Undefined g rule m) ∧
        ∀ fuel reporting source m t, rule.parse g fuel reporting source = some (.failed m, t) →
          Undefined g rule m) := by
  have hkeeps : ∀ fuel, Script.KeepsContract (apply g fuel) (fun _ => True) rule := fun fuel =>
    apply_keepsContract (fun _ hc => hc) hg fuel rule hrule fun _ _ => trivial
  refine ⟨fun fuel s o t hs h => (hkeeps fuel s o t hs h).1,
    fun fuel _ _ _ _ h => exact_of_parse (hkeeps fuel) h, fun hg hrule => ?_⟩
  have hfails : ∀ fuel s m t, s.Ordered → rule.apply g fuel s = some (.failed m, t) →
      Undefined g rule m := fun fuel s m t hs h => (plain_keepsContract hg hrule fuel s _ t hs h).2
  refine ⟨hfails, fun fuel _ source m _ h => ?_⟩
  obtain ⟨u, hu⟩ := exact_of_parse (hkeeps fuel) h
  exact hfails fuel _ m u (.ofSource source) hu

/-- A custom rule before a repeated option, between marks of others, over a source that ends twice. -/
theorem composed_contract_of_unfused_source :
    ∃ t : Scanner Char,
      (concat [.custom (.acceptIf (· != 'x')), zeroOrMore (.optional (.nonterminal ⟨0, "a"⟩))]).apply
        ⟨1, [(0, .symbol 'a')]⟩ 5 ⟨#['b'], .ofItems [none, some 'a'], [0, 0], 0, #[]⟩ =
          some (.matched ⟨0, 1⟩, t) ∧
      t.marks = [0, 0] ∧ t.position = 1 ∧ t.source = .ofItems [some 'a'] := by
  have hg : Grammar.Composed (Honours ⟨1, [(0, .symbol 'a')]⟩ fun _ => True)
      (⟨1, [(0, .symbol 'a')]⟩ : Grammar (Rule Char)) := by
    intro n body h
    simp only [Grammar.body?, List.lookup_cons, List.lookup_nil] at h
    split at h <;> cases h
    exact .symbol 'a'
  have hcustom : Honours ⟨1, [(0, .symbol 'a')]⟩ (fun _ => True)
      (.acceptIf (· != 'x') : Script (Rule Char) Char) := fun _ _ _ _ hs h =>
    Script.acceptIf_contract (fun _ _ _ _ => steps_of_apply _) hs h
  have hrule : (concat [.custom (.acceptIf (· != 'x')),
      zeroOrMore (.optional (.nonterminal ⟨0, "a"⟩))]).Composed
        (Honours ⟨1, [(0, .symbol 'a')]⟩ fun _ => True) := by
    simp [zeroOrMore, hcustom]
  have hs : Ordered (⟨#['b'], .ofItems [none, some 'a'], [0, 0], 0, #[]⟩ : Scanner Char) :=
    ⟨by simp, by simp, by simp⟩
  have hcontract := (composed_contract hg hrule).1 5 _ (.matched ⟨0, 1⟩) _ hs rfl
  exact ⟨_, rfl, hcontract.1, hcontract.2.2.1.symm, rfl⟩

end Rule

end Abnf
