import Abnf.Proofs.Adequacy
import Abnf.Proofs.Same

/-!
# Abnf.Proofs.Refactoring — grammars written otherwise

`Rule.Law` lists what a grammar's author may write in either of two ways, and `Rule.Refactors` closes
that under all ways to put rules together.  A law holds under recursion as well: bodies can be
refactored along with the rule (`Rule.comesTo_of_bodies_refactored`), although the two runs set
different marks and a distributed prefix is applied once more for each branch.

* `Rule.Joins.refactors_concat`, `.refactors_choice`: chains come to the flat forms, however they are
  bracketed.
* `Rule.parse_refactored`: answers are the same.
-/

namespace Abnf

variable {α : Type}

open Scanner

namespace Rule

/-- Two ways to write a rule. -/
inductive Law : Rule α → Rule α → Prop
  | concatGroup (as bs cs : List (Rule α)) :
    Law (.concat (as ++ .concat bs :: cs)) (.concat (as ++ bs ++ cs))
  | choiceGroup (as bs cs : List (Rule α)) :
    Law (.choice (as ++ .choice bs :: cs)) (.choice (as ++ bs ++ cs))
  | concatSingle (r : Rule α) : Law (.concat [r]) r
  | choiceSingle (r : Rule α) : Law (.choice [r]) r
  | distrib (a : Rule α) {bs : List (Rule α)} (h : bs ≠ []) :
    Law (.concat [a, .choice bs]) (.choice (bs.map fun b => .concat [a, b]))

/-- One rule comes of the other by laws, used in either direction, at any places and any number of
times. -/
inductive Refactors : Rule α → Rule α → Prop
  | law {r r' : Rule α} (h : Law r r') : Refactors r r'
  | refl (r : Rule α) : Refactors r r
  | symm {r r' : Rule α} (h : Refactors r r') : Refactors r' r
  | trans {r r' r'' : Rule α} (h : Refactors r r') (h' : Refactors r' r'') : Refactors r r''
  | concat (as bs : List (Rule α)) {r r' : Rule α} (h : Refactors r r') :
    Refactors (.concat (as ++ r :: bs)) (.concat (as ++ r' :: bs))
  | choice (as bs : List (Rule α)) {r r' : Rule α} (h : Refactors r r') :
    Refactors (.choice (as ++ r :: bs)) (.choice (as ++ r' :: bs))
  | optional {r r' : Rule α} (h : Refactors r r') : Refactors r.optional r'.optional
  | repetition (b : Bounds) {r r' : Rule α} (h : Refactors r r') :
    Refactors (.repetition b r) (.repetition b r')

/-- The rules, in order, joined two at a time. -/
inductive Joins (join : Rule α → Rule α → Rule α) : List (Rule α) → Rule α → Prop
  | single (r : Rule α) : Joins join [r] r
  | join {rs rs' : List (Rule α)} {r r' : Rule α} (h : Joins join rs r) (h' : Joins join rs' r') :
    Joins join (rs ++ rs') (join r r')

end Rule

/-- The same nonterminals are defined, with bodies that come of each other. -/
def Grammar.Refactors (g g' : Grammar (Rule α)) : Prop :=
  ∀ n, (g.body? n).Rel Rule.Refactors (g'.body? n)

namespace Rule

variable {r r' rule rule' : Rule α} {rules : List (Rule α)} {g g' : Grammar (Rule α)}

/-! ### What is refactored stays plain -/

theorem Law.plain_iff (h : Law r r') : r.Plain ↔ r'.Plain := by
  cases h with
  | concatGroup as bs cs | choiceGroup as bs cs => simp [or_imp, forall_and]
  | concatSingle | choiceSingle => simp
  | @distrib a bs hne =>
    obtain ⟨b, hb⟩ := List.exists_mem_of_ne_nil bs hne
    simp only [composed_concat_iff, composed_choice_iff, List.forall_mem_cons, List.forall_mem_map]
    constructor
    · rintro ⟨ha, hbs, -⟩ b hb
      exact ⟨ha, hbs b hb, by simp⟩
    · intro h
      exact ⟨(h b hb).1, fun b hb => (h b hb).2.1, by simp⟩

theorem Refactors.plain_iff (h : Refactors r r') : r.Plain ↔ r'.Plain := by
  induction h with
  | law h => exact h.plain_iff
  | refl => exact .rfl
  | symm _ ih => exact ih.symm
  | trans _ _ ih ih' => exact ih.trans ih'
  | concat as bs _ ih | choice as bs _ ih => simp [or_imp, forall_and, ih]
  | optional _ ih => simpa using ih
  | repetition b _ ih => simpa using ih

/-! ### Chains -/

theorem Refactors.join_concat {rs rs' : List (Rule α)} (h : Refactors r (.concat rs))
    (h' : Refactors r' (.concat rs')) : Refactors (r.andThen r') (.concat (rs ++ rs')) := by
  have hfirst : Refactors (r.andThen r') (.concat [.concat rs, r']) := .concat [] [r'] h
  have hsecond : Refactors (.concat [.concat rs, r']) (.concat [.concat rs, .concat rs']) :=
    .concat [.concat rs] [] h'
  have hleft : Refactors (.concat [.concat rs, .concat rs']) (.concat (rs ++ [.concat rs'])) :=
    .law (.concatGroup [] rs [.concat rs'])
  have hright : Refactors (.concat (rs ++ [.concat rs'])) (.concat (rs ++ rs')) := by
    simpa using Refactors.law (.concatGroup rs rs' [])
  exact hfirst.trans (hsecond.trans (hleft.trans hright))

theorem Refactors.join_choice {rs rs' : List (Rule α)} (h : Refactors r (.choice rs))
    (h' : Refactors r' (.choice rs')) : Refactors (r.orElse r') (.choice (rs ++ rs')) := by
  have hfirst : Refactors (r.orElse r') (.choice [.choice rs, r']) := .choice [] [r'] h
  have hsecond : Refactors (.choice [.choice rs, r']) (.choice [.choice rs, .choice rs']) :=
    .choice [.choice rs] [] h'
  have hleft : Refactors (.choice [.choice rs, .choice rs']) (.choice (rs ++ [.choice rs'])) :=
    .law (.choiceGroup [] rs [.choice rs'])
  have hright : Refactors (.choice (rs ++ [.choice rs'])) (.choice (rs ++ rs')) := by
    simpa using Refactors.law (.choiceGroup rs rs' [])
  exact hfirst.trans (hsecond.trans (hleft.trans hright))

theorem Joins.refactors_concat (h : Joins andThen rules r) : Refactors r (.concat rules) := by
  induction h with
  | single r => exact .symm (.law (.concatSingle r))
  | join _ _ ih ih' => exact ih.join_concat ih'

theorem Joins.refactors_choice (h : Joins orElse rules r) : Refactors r (.choice rules) := by
  induction h with
  | single r => exact .symm (.law (.choiceSingle r))
  | join _ _ ih ih' => exact ih.join_choice ih'

/-! ### What is refactored comes to the same -/

variable [Symbol α] {input : List α} {p : Nat} {o : Outcome}

theorem Law.same (h : Law r r') : Same g input r r' := by
  cases h with
  | concatGroup as bs cs =>
    rw [List.append_assoc]
    exact (Same.concat_append bs cs).symm.concat_behind as
  | choiceGroup as bs cs =>
    rw [List.append_assoc]
    exact (Same.choice_append bs cs).symm.choice_behind as
  | concatSingle => exact .concat_single _
  | choiceSingle => exact .choice_single _
  | distrib a hne => exact .distrib a hne

theorem Refactors.same (h : Refactors r r') : Same g input r r' := by
  induction h with
  | law h => exact h.same
  | refl r => exact .refl r
  | symm _ ih => exact ih.symm
  | trans _ _ ih ih' => exact ih.trans ih'
  | concat as bs _ ih => exact (ih.concat_cons (.refl _)).concat_behind as
  | choice as bs _ ih => exact (ih.choice_cons (.refl _)).choice_behind as
  | optional _ ih => exact ih.optional
  | repetition b _ ih => exact ih.repetition b

end Rule

namespace Grammar.Refactors

variable {g g' : Grammar (Rule α)} {n : Nonterminal} {body : Rule α}

theorem symm (h : g.Refactors g') : g'.Refactors g := by
  intro n
  have hn := h n
  generalize g.body? n = b, g'.body? n = b' at hn
  cases hn with
  | some hbody => exact .some hbody.symm
  | none => exact .none

theorem body_some (h : g.Refactors g') (hb : g.body? n = some body) :
    ∃ body', g'.body? n = some body' ∧ body.Refactors body' := by
  have hn := h n
  rw [hb] at hn
  generalize g'.body? n = b' at hn
  cases hn with
  | some hbody => exact ⟨_, rfl, hbody⟩

theorem body_none (h : g.Refactors g') (hb : g.body? n = none) : g'.body? n = none := by
  have hn := h n
  rw [hb] at hn
  generalize g'.body? n = b' at hn
  cases hn with
  | none => rfl

theorem plain (h : g.Refactors g') (hg : g.Plain) : g'.Plain := by
  intro n body' hb'
  obtain ⟨body, hb, hbody⟩ := h.symm.body_some hb'
  exact hbody.plain_iff.mpr (hg n body hb)

end Grammar.Refactors

namespace Rule

variable [Symbol α] {r r' rule rule' : Rule α} {rules : List (Rule α)} {g g' : Grammar (Rule α)}
  {input : List α} {p : Nat} {o : Outcome}

/-- The bodies are refactored where the evaluation uses them, to any depth. -/
theorem comesTo_of_bodies_refactored (hbodies : g.Refactors g') (h : r.ComesTo g input p o) :
    r.ComesTo g' input p o := by
  refine h.of_bodies (fun n body hb => ?_) fun n hb => hbodies.body_none hb
  obtain ⟨body', hb', hbody⟩ := hbodies.body_some hb
  exact ⟨body', hb', hbody.same⟩

theorem comesTo_refactored_iff (hbodies : g.Refactors g') (hr : r.Refactors r') :
    r.ComesTo g input p o ↔ r'.ComesTo g' input p o := by
  constructor
  · exact fun h => (hr.same p o).mp (comesTo_of_bodies_refactored hbodies h)
  · exact fun h => (hr.same p o).mpr (comesTo_of_bodies_refactored hbodies.symm h)

/-! ### Parses -/

omit [Symbol α] in
/-- What a parse over an input answers for an outcome. -/
def answerFor (input : List α) : Outcome → Answer α
  | .matched span => .matched (input.take span.stop)
  | .noMatch => .noMatch
  | .failed misuse => .failed misuse

theorem Exact.answerFor {fuel : Nat} {source : Source α} {answer : Answer α}
    (h : Exact g fuel rule source answer) :
    ∃ o u, rule.apply g fuel (ofSource source) = some (o, u) ∧
      answer = Rule.answerFor source.contents o := by
  cases answer with
  | matched symbols =>
    obtain ⟨u, ha, -, hpre⟩ := h
    refine ⟨_, u, ha, ?_⟩
    rw [Rule.answerFor, ← List.prefix_iff_eq_take.mp hpre]
  | noMatch =>
    obtain ⟨u, ha⟩ := h
    exact ⟨_, u, ha, rfl⟩
  | failed misuse =>
    obtain ⟨u, ha⟩ := h
    exact ⟨_, u, ha, rfl⟩
  | noLength => exact h.elim

/-- Over an input, a plain rule's parse answers for what the rule comes to at the beginning. -/
theorem comesTo_of_parse (hg : g.Plain) (hrule : rule.Plain) {fuel : Nat} {reporting : Bool}
    {source : Source α} {answer : Answer α} {t : Scanner α} (hin : source.Delivers input)
    (h : rule.parse g fuel reporting source = some (answer, t)) :
    ∃ o, rule.ComesTo g input 0 o ∧ answer = answerFor source.contents o := by
  obtain ⟨o, u, ha, hanswer⟩ := (exact_of_parse (plain_keepsContract hg hrule fuel) h).answerFor
  exact ⟨o, comesTo_of_apply hg fuel rule _ o u hrule (.ofSource source) (reads_ofSource hin) ha,
    hanswer⟩

theorem parse_of_comesTo (hg : g.Plain) (hrule : rule.Plain) {source : Source α}
    (hin : source.Delivers input) (h : rule.ComesTo g input 0 o) (reporting : Bool) :
    ∃ fuel x, rule.parse g fuel reporting source = some x := by
  have hat : (ofSource source).At input 0 := ⟨.ofSource source, reads_ofSource hin, rfl⟩
  obtain ⟨fuel, t, ha⟩ := apply_of_comesTo hg hrule h hat
  exact ⟨fuel, t.finish reporting o, by rw [parse, ha]⟩

/-- **Refactoring keeps every parse.**  Let a rule and the bodies of the nonterminals be refactored, at
any places.  Over every input, a parse with the one ends if a parse with the other does, and both give
one answer: the same text, no match, or the same failure.  And a chain of rules, joined two at a time
in any way, may stand for the flat form at any place. -/
theorem parse_refactored (hg : g.Plain) (hrule : rule.Plain) (hbodies : g.Refactors g')
    (hr : rule.Refactors rule') {source : Source α} (hin : source.Delivers input) :
    (∀ reporting, (∃ fuel x, rule.parse g fuel reporting source = some x) ↔
        ∃ fuel x, rule'.parse g' fuel reporting source = some x) ∧
      (∀ fuel fuel' reporting reporting' answer answer' t t',
        rule.parse g fuel reporting source = some (answer, t) →
        rule'.parse g' fuel' reporting' source = some (answer', t') → answer = answer') ∧
      (∀ (rules : List (Rule α)) chain, Joins andThen rules chain →
        chain.Refactors (.concat rules)) ∧
      ∀ (rules : List (Rule α)) chain, Joins orElse rules chain → chain.Refactors (.choice rules) := by
  have hg' := hbodies.plain hg
  have hrule' := hr.plain_iff.mp hrule
  refine ⟨fun reporting => ?_, ?_, fun rules chain h => h.refactors_concat,
    fun rules chain h => h.refactors_choice⟩
  · constructor
    · rintro ⟨fuel, x, h⟩
      obtain ⟨o, ho, -⟩ := comesTo_of_parse hg hrule hin h
      exact parse_of_comesTo hg' hrule' hin ((comesTo_refactored_iff hbodies hr).mp ho) reporting
    · rintro ⟨fuel, x, h⟩
      obtain ⟨o, ho, -⟩ := comesTo_of_parse hg' hrule' hin h
      exact parse_of_comesTo hg hrule hin ((comesTo_refactored_iff hbodies hr).mpr ho) reporting
  · intro fuel fuel' reporting reporting' answer answer' t t' h h'
    obtain ⟨o, ho, rfl⟩ := comesTo_of_parse hg hrule hin h
    obtain ⟨o', ho', rfl⟩ := comesTo_of_parse hg' hrule' hin h'
    obtain rfl := ((comesTo_refactored_iff hbodies hr).mp ho).unique ho'
    rfl

/-- Nested brackets, then an `x` or the end: the recursion grouped, the choice distributed. -/
theorem parse_refactored_of_nested_brackets :
    ∃ fuel t,
      (choice [.concat [.nonterminal ⟨0, "nested"⟩, .symbol 'x'],
          .concat [.nonterminal ⟨0, "nested"⟩, .endOfInput]]).parse
        ⟨1, [(0, .choice [.concat [.concat [.symbol '(', .nonterminal ⟨0, "nested"⟩], .symbol ')'],
          .concat []])]⟩ fuel true (.ofList "(())".toList) = some (.matched "(())".toList, t) := by
  have hg : Grammar.Plain ⟨1, [(0, choice [.concat [.symbol '(', .nonterminal ⟨0, "nested"⟩,
      .symbol ')'], .concat []])]⟩ := by
    intro n body h
    simp only [Grammar.body?, List.lookup_cons, List.lookup_nil] at h
    split at h <;> cases h
    simp
  have hrule : (concat [.nonterminal ⟨0, "nested"⟩, .choice [.symbol 'x', .endOfInput]]).Plain := by
    simp
  have hgroup : Refactors
      (choice [.concat [.symbol '(', .nonterminal ⟨0, "nested"⟩, .symbol ')'], .concat []])
      (choice [.concat [.concat [.symbol '(', .nonterminal ⟨0, "nested"⟩], .symbol ')'],
        .concat []]) :=
    .choice [] [.concat []]
      (.symm (.law (.concatGroup [] [.symbol '(', .nonterminal ⟨0, "nested"⟩] [.symbol ')'])))
  have hbodies : Grammar.Refactors
      ⟨1, [(0, choice [.concat [.symbol '(', .nonterminal ⟨0, "nested"⟩, .symbol ')'],
        .concat []])]⟩
      ⟨1, [(0, choice [.concat [.concat [.symbol '(', .nonterminal ⟨0, "nested"⟩], .symbol ')'],
        .concat []])]⟩ := by
    intro n
    simp only [Grammar.body?, List.lookup_cons, List.lookup_nil]
    split
    · exact .some hgroup
    · exact .none
  have hdistrib := Refactors.law (.distrib (.nonterminal ⟨0, "nested"⟩)
    (List.cons_ne_nil (.symbol 'x') [.endOfInput]))
  have happly : (concat [.nonterminal ⟨0, "nested"⟩, .choice [.symbol 'x', .endOfInput]]).apply
      ⟨1, [(0, choice [.concat [.symbol '(', .nonterminal ⟨0, "nested"⟩, .symbol ')'],
        .concat []])]⟩ 12 (.ofSource (.ofList "(())".toList)) =
      some (.matched ⟨0, 4⟩, ⟨#['(', '(', ')', ')'], .ofList [], [], 4, #[.rolledBack 2 2]⟩) := rfl
  have hparse : (concat [.nonterminal ⟨0, "nested"⟩, .choice [.symbol 'x', .endOfInput]]).parse
      ⟨1, [(0, choice [.concat [.symbol '(', .nonterminal ⟨0, "nested"⟩, .symbol ')'],
        .concat []])]⟩ 12 true (.ofList "(())".toList) =
      some (.matched "(())".toList,
        ⟨#['(', '(', ')', ')'], .ofList [], [], 4, #[.rolledBack 2 2, .matched 4]⟩) := by
    rw [parse, happly]
    rfl
  obtain ⟨hends, hanswers, -⟩ :=
    parse_refactored hg hrule hbodies hdistrib (Source.delivers_ofList "(())".toList)
  obtain ⟨fuel, ⟨answer, t⟩, h⟩ := (hends true).mp ⟨12, _, hparse⟩
  obtain rfl := hanswers 12 fuel true true _ _ _ _ hparse h
  exact ⟨fuel, t, h⟩

end Rule

end Abnf
