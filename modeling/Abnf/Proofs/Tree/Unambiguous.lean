import Abnf.Proofs.Agreement
import Abnf.Proofs.Tree.Derivation
import Mathlib.Data.List.Forall2

/-!
# Abnf.Proofs.Tree.Unambiguous — where choice is unambiguous, match and parse tree agree

`Rule.Alike r r'`: the same pattern, once as a rule that matches and once as a rule that answers parse
trees under any keys.  The one takes the first branch that matches, the other all candidates of all
branches and then the longest.  Where of each choice at most one branch answers anything, there is
never more than one candidate (`Rule.Agree`), and it ends where the match does.

* `Parser.combinations_agree`, `.choice_agrees`, `.steps_agree`: one combinator beside the other.
* `Rule.agree_of_apply`: the simulation, by induction on fuel.
* `Rule.parses_agree`: the two ways to parse.
-/

namespace Abnf.Tree

namespace Rule

/-! ### The same pattern -/

mutual

/-- The same pattern, to be matched and to be recorded in parse trees. -/
inductive Alike : Abnf.Rule UInt8 → Rule → Prop
  | literal (key : String) (expected : List UInt8) :
    Alike (.literal expected) (.terminal key expected)
  | range (key : String) (low high : UInt8) : Alike (.range low high) (.range key low high)
  | oneOf (key : String) (candidates : List UInt8) : Alike (.oneOf candidates) (.oneOf key candidates)
  | concat (key : String) {rules : List (Abnf.Rule UInt8)} {rules' : List Rule}
    (h : AllAlike rules rules') : Alike (.concat rules) (.concat key rules')
  | choice (key : String) {rules : List (Abnf.Rule UInt8)} {rules' : List Rule}
    (h : AllAlike rules rules') : Alike (.choice rules) (.choice key rules')
  | repetition (key : String) (bounds : Bounds) {rule : Abnf.Rule UInt8} {rule' : Rule}
    (h : Alike rule rule') : Alike (.repetition bounds rule) (.repetition key bounds rule')
  | optional (key : String) {rule : Abnf.Rule UInt8} {rule' : Rule} (h : Alike rule rule') :
    Alike (.optional rule) (optional key rule')
  | nonterminal (n : Nonterminal) : Alike (.nonterminal n) (.nonterminal n)

/-- The same patterns, in the same order. -/
inductive AllAlike : List (Abnf.Rule UInt8) → List Rule → Prop
  | nil : AllAlike [] []
  | cons {rule : Abnf.Rule UInt8} {rules : List (Abnf.Rule UInt8)} {rule' : Rule}
    {rules' : List Rule} (h : Alike rule rule') (hrest : AllAlike rules rules') :
    AllAlike (rule :: rules) (rule' :: rules')

end

mutual

theorem Alike.plain {rule : Abnf.Rule UInt8} {rule' : Rule} :
    Alike rule rule' → rule.Plain ∧ rule'.Plain
  | .literal _ _ => ⟨Abnf.Rule.composed_literal _, .terminal _ _⟩
  | .range _ _ _ => ⟨.range _ _, .range _ _ _⟩
  | .oneOf _ _ => ⟨.oneOf _, .oneOf _ _⟩
  | .concat _ h => ⟨.concat h.plain.1, .concat _ h.plain.2⟩
  | .choice _ h => ⟨.choice h.plain.1, .choice _ h.plain.2⟩
  | .repetition _ _ h => ⟨.repetition _ h.plain.1, .repetition _ _ h.plain.2⟩
  | .optional _ h => ⟨.optional h.plain.1, .repetition _ _ h.plain.2⟩
  | .nonterminal _ => ⟨.nonterminal _, .nonterminal _⟩

theorem AllAlike.plain {rules : List (Abnf.Rule UInt8)} {rules' : List Rule} :
    AllAlike rules rules' → (∀ r ∈ rules, r.Plain) ∧ ∀ r ∈ rules', r.Plain
  | .nil => by simp
  | .cons h hrest => by
    obtain ⟨hplain, hplain'⟩ := h.plain
    have hothers := hrest.plain
    simp only [List.mem_cons, forall_eq_or_imp]
    exact ⟨⟨hplain, hothers.1⟩, hplain', hothers.2⟩

end

end Rule

/-- The same nonterminals are defined, with bodies alike. -/
def Grammar.Alike (g : Grammar (Abnf.Rule UInt8)) (g' : Grammar Rule) : Prop :=
  ∀ n, Option.Rel Rule.Alike (g.body? n) (g'.body? n)

theorem Grammar.Alike.plain {g : Grammar (Abnf.Rule UInt8)} {g' : Grammar Rule}
    (h : Grammar.Alike g g') : g.Plain ∧ Grammar.Plain g' := by
  constructor
  · intro n body hb
    have hn := h n
    rw [hb] at hn
    cases hrel : g'.body? n with
    | none =>
      rw [hrel] at hn
      cases hn
    | some body' =>
      rw [hrel] at hn
      cases hn with
      | some hbody => exact hbody.plain.1
  · intro n body' hb
    have hn := h n
    rw [hb] at hn
    cases hrel : g.body? n with
    | none =>
      rw [hrel] at hn
      cases hn
    | some body =>
      rw [hrel] at hn
      cases hn with
      | some hbody => exact hbody.plain.2

namespace Rule

variable {g : Grammar (Abnf.Rule UInt8)} {g' : Grammar Rule} {input rest : List UInt8}

/-! ### Unambiguous choice -/

/-- Some application answers a candidate. -/
def Answers (g' : Grammar Rule) (rule : Rule) (input : List UInt8) : Prop :=
  ∃ fuel found records, rule.apply g' fuel input = .done found records ∧ found.nodes ≠ []

/-- At each place of the input, at most one branch of each choice answers a candidate. -/
def Unambiguous (g' : Grammar Rule) (rule : Rule) (input : List UInt8) : Prop :=
  ∀ key rules, Part g' rule (.choice key rules) → ∀ rest, rest <:+ input →
    rules.Pairwise fun r r' => ¬ (Answers g' r rest ∧ Answers g' r' rest)

theorem Unambiguous.of_part {rule part : Rule} (h : Unambiguous g' rule input)
    (hpart : Part g' rule part) : Unambiguous g' part input :=
  fun key rules hchoice => h key rules (hpart.trans hchoice)

/-- No candidate without a match, and else one, of what was matched. -/
def Agree (p : Nat) (o : Outcome) (nodes : List Node) : Prop :=
  (o = .noMatch ∧ nodes = []) ∨ ∃ n, o = .matched ⟨p, p + n.length⟩ ∧ nodes = [n]

/-- A way to find candidates agrees with what the rule comes to, everywhere in the input. -/
def AgreesWith (g : Grammar (Abnf.Rule UInt8)) (input : List UInt8) (rule : Abnf.Rule UInt8)
    (p : Parser) : Prop :=
  ∀ position o found records, rule.ComesTo g input position o →
    p (input.drop position) = .done found records → Agree position o found.nodes

end Rule

open Abnf.Rule (ComesTo)

/-! ### The combinators beside each other -/

namespace Parser

open Abnf.Tree.Rule (Agree AgreesWith)

variable {g : Grammar (Abnf.Rule UInt8)} {input : List UInt8} {key : String} {position : Nat}
  {o : Outcome} {records : List Record}

/-- A rule that matches one byte, if that passes the test. -/
theorem byteThat_agrees {rule : Abnf.Rule UInt8} {test : UInt8 → Bool}
    (h : ∀ position o, rule.ComesTo g input position o →
      (∃ b, input[position]? = some b ∧ test b = true ∧ o = .matched ⟨position, position + 1⟩) ∨
        ((∀ b, input[position]? = some b → test b = false) ∧ o = .noMatch)) :
    AgreesWith g input rule (byteThat key test) := by
  intro position o found records ho hdone
  rcases byteThat_done hdone with ⟨b, rest, hrest, htest, hone⟩ | ⟨hno, hnone⟩
  · have hb : input[position]? = some b := by rw [← List.head?_drop, hrest, List.head?_cons]
    rcases h position o ho with ⟨_, -, -, rfl⟩ | ⟨hno, -⟩
    · exact .inr ⟨_, rfl, hone⟩
    · have hfalse := hno b hb
      simp [htest] at hfalse
  · rw [List.head?_drop] at hno
    rcases h position o ho with ⟨b, hb, htest, -⟩ | ⟨-, rfl⟩
    · simp [hno b hb] at htest
    · exact .inl ⟨rfl, hnone⟩

theorem range_agrees {low high : UInt8} :
    AgreesWith g input (.range low high) (byteThat key fun b => low ≤ b && b ≤ high) := by
  refine byteThat_agrees fun position o ho => ?_
  cases ho with
  | @range _ _ b _ hb h =>
    have htest : low ≤ b ∧ b ≤ high := h
    exact .inl ⟨b, hb, by simpa using htest, rfl⟩
  | rangeElse h =>
    refine .inr ⟨fun b hb => ?_, rfl⟩
    rw [Bool.eq_false_iff]
    intro htest
    simp only [Bool.and_eq_true, decide_eq_true_eq] at htest
    exact h b htest.1 htest.2 hb

theorem oneOf_agrees {candidates : List UInt8} :
    AgreesWith g input (.oneOf candidates) (byteThat key candidates.contains) := by
  refine byteThat_agrees fun position o ho => ?_
  cases ho with
  | @oneOf _ b _ hb h => exact .inl ⟨b, hb, by simpa using h, rfl⟩
  | oneOfElse h =>
    refine .inr ⟨fun b hb => ?_, rfl⟩
    have hmem : b ∉ candidates := fun hmem => h b hmem hb
    simpa using hmem

theorem terminal_agrees {expected : List UInt8} :
    AgreesWith g input (.literal expected) (terminal key expected) := by
  intro position o found records ho hdone
  rw [Abnf.Rule.comesTo_literal_iff] at ho
  rcases terminal_done hdone with ⟨hpre, hone⟩ | ⟨hno, hnone⟩
  · rcases ho with ⟨-, rfl⟩ | ⟨hno, -⟩
    · exact .inr ⟨_, rfl, hone⟩
    · exact absurd hpre hno
  · rcases ho with ⟨hpre, -⟩ | ⟨-, rfl⟩
    · exact absurd hpre hno
    · exact .inl ⟨rfl, hnone⟩

/-- With one candidate a part at most, there is one combination or none. -/
theorem combinations_agree {rules : List (Abnf.Rule UInt8)} {parsers : List Parser}
    (h : List.Forall₂ (AgreesWith g input) rules parsers) {combos : List (List Node)}
    (ho : (Abnf.Rule.concat rules).ComesTo g input position o)
    (hdone : combinations parsers (input.drop position) = .done combos records) :
    (o = .noMatch ∧ combos = []) ∨
      ∃ c, o = .matched ⟨position, position + Node.lengthList c⟩ ∧ combos = [c] := by
  induction h generalizing position o combos records with
  | nil =>
    cases ho
    cases hdone
    exact .inr ⟨[], rfl, rfl⟩
  | @cons rule p rules parsers hfirst _ ih =>
    obtain ⟨found, _, _, hfound, hdone⟩ := Trial.done_of_bind hdone
    cases ho with
    | concatCons ho hrest =>
      rcases hfirst _ _ _ _ ho hfound with ⟨ho, -⟩ | ⟨n, ho, hone⟩
      · cases ho
      · cases ho
        rw [hone] at hdone
        obtain ⟨tails, _, _, htails, hdone⟩ := Trial.done_of_bind hdone
        cases hdone
        dsimp only at htails
        split at htails
        · rw [List.drop_drop] at htails
          rcases ih hrest htails with ⟨rfl, rfl⟩ | ⟨c, rfl, rfl⟩
          · exact .inl ⟨rfl, rfl⟩
          · refine .inr ⟨n :: c, ?_, rfl⟩
            simp only [Outcome.since, Node.lengthList, Nat.add_assoc]
        · cases htails
    | concatElse ho hno =>
      rcases hfirst _ _ _ _ ho hfound with ⟨rfl, hnone⟩ | ⟨n, rfl, -⟩
      · rw [hnone] at hdone
        cases hdone
        exact .inl ⟨rfl, rfl⟩
      · exact absurd rfl (hno _)

theorem concat_agrees {rules : List (Abnf.Rule UInt8)} {parsers : List Parser}
    (h : List.Forall₂ (AgreesWith g input) rules parsers) :
    AgreesWith g input (.concat rules) (concat key parsers) := by
  intro position o found records ho hdone
  obtain ⟨combos, hcombos, hfound⟩ := concat_done hdone
  rcases combinations_agree h ho hcombos with ⟨rfl, rfl⟩ | ⟨c, rfl, rfl⟩
  · rcases hfound with ⟨-, rfl⟩ | ⟨c, hc, -⟩
    · exact .inl ⟨rfl, rfl⟩
    · cases hc
  · rcases hfound with ⟨hnil, -⟩ | ⟨d, hd, hle, rfl⟩
    · cases hnil
    · obtain rfl := List.mem_singleton.mp hd.mem
      refine .inr ⟨_, ?_, rfl⟩
      simp only [Node.length, List.length_take, Nat.min_eq_left hle]

/-- A branch that answers is the only one, so that it is also the first one that matches. -/
theorem choice_agrees {rules : List (Abnf.Rule UInt8)} {parsers : List Parser}
    (h : List.Forall₂ (AgreesWith g input) rules parsers)
    (hone : parsers.Pairwise fun p q => ∀ found records found' records',
      p (input.drop position) = .done found records →
      q (input.drop position) = .done found' records' → found.nodes = [] ∨ found'.nodes = [])
    (ho : (Abnf.Rule.choice rules).ComesTo g input position o) {found : Candidates}
    (hdone : choice key parsers (input.drop position) = .done found records) :
    Agree position o found.nodes := by
  induction h generalizing found records with
  | nil =>
    cases ho
    cases hdone
    exact .inl ⟨rfl, rfl⟩
  | @cons rule p rules parsers hfirst _ ih =>
    obtain ⟨hbranch, hothers⟩ := List.pairwise_cons.mp hone
    obtain ⟨inner, _, _, hinner, hdone⟩ := Trial.done_of_bind hdone
    obtain ⟨more, _, _, hmore, hdone⟩ := Trial.done_of_bind hdone
    cases hdone
    cases ho with
    | choiceFirst ho hno =>
      rcases hfirst _ _ _ _ ho hinner with ⟨rfl, -⟩ | ⟨n, rfl, hn⟩
      · exact absurd rfl hno
      · have hnone : more.nodes = [] := by
          refine List.eq_nil_iff_forall_not_mem.mpr fun m hm => ?_
          obtain ⟨q, hq, found', _, hfound', m', hm', -⟩ := mem_choice hmore hm
          rcases hbranch q hq _ _ _ _ hinner hfound' with hnil | hnil
          · simp [hn] at hnil
          · simp [hnil] at hm'
        exact .inr ⟨wrap key n, rfl, by simp [hn, hnone]⟩
    | choiceNext ho hrest =>
      rcases hfirst _ _ _ _ ho hinner with ⟨-, hn⟩ | ⟨n, ho, -⟩
      · rw [hn]
        exact ih hothers hrest hmore
      · cases ho

theorem best?_of_agree {found : Candidates} (h : Agree position o found.nodes) :
    (o = .noMatch ∧ found.best? = none) ∨
      ∃ n, o = .matched ⟨position, position + n.length⟩ ∧ found.best? = some n := by
  obtain ⟨nodes⟩ := found
  rcases h with ⟨ho, rfl⟩ | ⟨n, ho, rfl⟩
  · exact .inl ⟨ho, rfl⟩
  · exact .inr ⟨n, ho, rfl⟩

/-- What a repetition comes to with these steps after `count` others: no match if they are too few. -/
def Counted (b : Bounds) (position count : Nat) (children : List Node) (o : Outcome) : Prop :=
  (count + children.length < b.min ∧ o = .noMatch) ∨
    (b.min ≤ count + children.length ∧
      o = .matched ⟨position, position + Node.lengthList children⟩)

section Steps

variable {rule : Abnf.Rule UInt8} {p : Parser} {b : Bounds} {count : Nat} {children : List Node}

theorem Counted.cons {step : Node} {more : List Node}
    (h : Counted b (position + step.length) (count + 1) more o) :
    Counted b position count (step :: more) (o.since position) := by
  rcases h with ⟨hlt, rfl⟩ | ⟨hle, rfl⟩
  · exact .inl ⟨by rw [List.length_cons]; omega, rfl⟩
  · refine .inr ⟨by rw [List.length_cons]; omega, ?_⟩
    simp only [Outcome.since, Node.lengthList, Nat.add_assoc]

/-- The last step stands for all that are still needed. -/
theorem counted_replicate {step : Node} (h : step.length = 0) :
    Counted b position count (List.replicate (b.min - count) step)
      (.matched ⟨position, position⟩) := by
  refine .inr ⟨by rw [List.length_replicate]; omega, ?_⟩
  rw [Node.lengthList_replicate, h, Nat.mul_zero]
  rfl

theorem counted_of_not_allowMore (hb : b.inOrder) (hmore : b.allowMore count = false)
    (ho : (Abnf.Rule.repetition (b.after count) rule).ComesTo g input position o)
    (hdone : steps b p (input.drop position) count = .done children records) :
    Counted b position count children o := by
  obtain rfl := ho.of_full (Bounds.inOrder_after hb count) (Bounds.max_after_of_not_allowMore hmore)
  rcases steps_cases hdone with ⟨rfl, -⟩ | ⟨hallow, -⟩
  · exact .inr ⟨Bounds.min_le_of_not_allowMore hb hmore, rfl⟩
  · simp [hmore] at hallow

/-- One step beside one round: it is the last one, or both go on behind it. -/
theorem step_agrees (h : AgreesWith g input rule p) (hb : b.inOrder)
    (hmore : b.allowMore count = true)
    (ho : (Abnf.Rule.repetition (b.after count) rule).ComesTo g input position o)
    (hdone : steps b p (input.drop position) count = .done children records) :
    Counted b position count children o ∨
      ∃ step more later o', step.length ≠ 0 ∧ step.length ≤ (input.drop position).length ∧
        steps b p (input.drop (position + step.length)) (count + 1) = .done more later ∧
        (Abnf.Rule.repetition (b.after (count + 1)) rule).ComesTo g input
          (position + step.length) o' ∧
        children = step :: more ∧ o = o'.since position := by
  have hmax := (Bounds.max_after_ne_zero_iff b count).mpr hmore
  obtain ⟨o₁, hrule, hround⟩ := ho.of_round (Bounds.inOrder_after hb count) hmax
  rcases steps_cases hdone with ⟨rfl, hnone | ⟨found, _, hfound, hbest⟩⟩ |
    ⟨-, found, _, step, hfound, hbest, hstep⟩
  · simp [hmore] at hnone
  · rcases best?_of_agree (h _ _ _ _ hrule hfound) with ⟨rfl, -⟩ | ⟨n, -, hn⟩
    · rcases hround with ⟨hmin, rfl⟩ | ⟨hmin, rfl⟩
      · have henough : b.min - count = 0 := hmin
        exact .inl (.inr ⟨by rw [List.length_nil]; omega, rfl⟩)
      · have hlack : b.min - count ≠ 0 := hmin
        exact .inl (.inl ⟨by rw [List.length_nil]; omega, rfl⟩)
    · cases hn.symm.trans hbest
  · rcases best?_of_agree (h _ _ _ _ hrule hfound) with ⟨-, hn⟩ | ⟨n, rfl, hn⟩
    · cases hn.symm.trans hbest
    · cases hn.symm.trans hbest
      rcases hstep with ⟨hempty, rfl⟩ | ⟨hne, hfits, more, later, hsteps, rfl⟩
      · rcases hround with ⟨-, rfl⟩ | ⟨hp, -⟩
        · exact .inl (counted_replicate hempty)
        · exact absurd (by rw [hempty]; rfl) hp
      · rcases hround with ⟨hp, -⟩ | ⟨-, o', hrest, rfl⟩
        · have hzero : position + step.length = position := hp
          omega
        · rw [List.drop_drop] at hsteps
          rw [Bounds.after_after] at hrest
          exact .inr ⟨step, more, later, o', hne, hfits, hsteps, hrest, rfl, rfl⟩

/-- The steps after `count` others are the rounds that are left. -/
theorem steps_agree (h : AgreesWith g input rule p) (hb : b.inOrder)
    (ho : (Abnf.Rule.repetition (b.after count) rule).ComesTo g input position o)
    (hdone : steps b p (input.drop position) count = .done children records) :
    Counted b position count children o := by
  induction hk : (input.drop position).length using Nat.strongRecOn
    generalizing position count o children records with
  | ind k ih =>
    cases hmore : b.allowMore count with
    | false => exact counted_of_not_allowMore hb hmore ho hdone
    | true =>
      rcases step_agrees h hb hmore ho hdone with hlast |
        ⟨step, more, later, o', hne, hfits, hsteps, hrest, rfl, rfl⟩
      · exact hlast
      · have hshorter : (input.drop (position + step.length)).length < k := by
          rw [← List.drop_drop, List.length_drop]
          omega
        exact (ih _ hshorter hrest hsteps rfl).cons

end Steps

theorem repetition_agrees {rule : Abnf.Rule UInt8} {p : Parser} {b : Bounds}
    (h : AgreesWith g input rule p) : AgreesWith g input (.repetition b rule) (repetition key b p) := by
  intro position o found records ho hdone
  rcases repetition_done hdone with ⟨hb, hnone⟩ | ⟨hb, children, _, hsteps, hchildren⟩
  · rw [hnone]
    cases ho with
    | outOfOrder => exact .inl ⟨rfl, rfl⟩
    | full hb' | round hb' | emptyRound hb' | enough hb' | tooFew hb' | roundFails hb' =>
      simp [hb] at hb'
  · have hle := (combination_of_steps hsteps).lengthList_le
    rw [← b.after_zero] at ho
    have hagree := steps_agree h hb ho hsteps
    rw [Counted, Nat.zero_add] at hagree
    rcases hagree with ⟨hlt, rfl⟩ | ⟨hmin, rfl⟩
    · rcases hchildren with ⟨-, hnone⟩ | ⟨hmin, -⟩
      · exact .inl ⟨rfl, hnone⟩
      · omega
    · rcases hchildren with ⟨hlt, -⟩ | ⟨-, hone⟩
      · omega
      · refine .inr ⟨_, ?_, hone⟩
        simp only [Node.length, List.length_take, Nat.min_eq_left hle]

end Parser

/-! ### The two ways to parse -/

namespace Rule

variable {g : Grammar (Abnf.Rule UInt8)} {g' : Grammar Rule} {input : List UInt8}

/-- An option is a repetition that is allowed once. -/
theorem comesTo_repetition_of_optional {rule : Abnf.Rule UInt8} {p : Nat} {o : Outcome}
    (h : (Abnf.Rule.optional rule).ComesTo g input p o) :
    (Abnf.Rule.repetition (.atMost 1) rule).ComesTo g input p o := by
  have hmax : (Bounds.atMost 1).max ≠ some 0 := by simp [Bounds.atMost]
  cases h with
  | optional hrule ho =>
    cases o with
    | matched span =>
      obtain ⟨start, stop⟩ := span
      obtain rfl : start = p := hrule.start_eq _ rfl
      by_cases hstop : stop = start
      · subst hstop
        exact .emptyRound rfl hmax hrule
      · exact .round rfl hmax hrule hstop (.full rfl rfl)
    | noMatch => exact absurd rfl ho
    | failed misuse => exact .roundFails rfl hmax hrule
  | optionalElse hrule => exact .enough rfl hmax hrule rfl

theorem AllAlike.forall₂ {P : Abnf.Rule UInt8 → Rule → Prop} {rules : List (Abnf.Rule UInt8)}
    {rules' : List Rule} (h : AllAlike rules rules')
    (hP : ∀ r r', r' ∈ rules' → Alike r r' → P r r') : List.Forall₂ P rules rules' := by
  induction rules generalizing rules' with
  | nil =>
    cases h
    exact .nil
  | cons r rest ih =>
    cases h with
    | cons h hrest =>
      refine .cons (hP _ _ List.mem_cons_self h) (ih hrest fun r r' hr' => ?_)
      exact hP r r' (List.mem_cons_of_mem _ hr')

/-- **The simulation.**  One case for each constructor: the candidates of the sub-rules agree with
what the sub-rules come to. -/
theorem agree_of_apply (hg : Grammar.Alike g g') : ∀ (fuel : Nat) (rule : Abnf.Rule UInt8)
    (rule' : Rule), Alike rule rule' → Unambiguous g' rule' input →
      AgreesWith g input rule (rule'.apply g' fuel)
  | 0, _, _, _, _ => fun _ _ _ _ _ h => nomatch h
  | fuel + 1, rule, rule', hrule, hinput => by
    have ih := agree_of_apply hg fuel
    intro position o found records ho hdone
    rw [apply_succ] at hdone
    cases hrule with
    | literal => exact Parser.terminal_agrees _ _ _ _ ho hdone
    | range => exact Parser.range_agrees _ _ _ _ ho hdone
    | oneOf => exact Parser.oneOf_agrees _ _ _ _ ho hdone
    | concat key h =>
      refine Parser.concat_agrees ?_ _ _ _ _ ho hdone
      rw [List.forall₂_map_right_iff]
      exact h.forall₂ fun r r' hmem halike => ih r r' halike
        (hinput.of_part (.concat hmem (.self r')))
    | @choice key rules rules' h =>
      refine Parser.choice_agrees ?_ ?_ ho hdone
      · rw [List.forall₂_map_right_iff]
        exact h.forall₂ fun r r' hmem halike => ih r r' halike
          (hinput.of_part (.choice hmem (.self r')))
      · rw [List.pairwise_map]
        refine (hinput key rules' (.self _) _ (List.drop_suffix position input)).imp ?_
        intro r r' hboth found later found' later' hfound hfound'
        by_contra hne
        rw [not_or] at hne
        exact hboth ⟨⟨fuel, _, _, hfound, hne.1⟩, ⟨fuel, _, _, hfound', hne.2⟩⟩
    | repetition key b h =>
      refine Parser.repetition_agrees (ih _ _ h ?_) _ _ _ _ ho hdone
      exact hinput.of_part (.repetition (.self _))
    | optional key h =>
      refine Parser.repetition_agrees (ih _ _ h ?_) _ _ _ _ (comesTo_repetition_of_optional ho) hdone
      exact hinput.of_part (.repetition (.self _))
    | nonterminal n =>
      have hn := hg n
      simp only [parser] at hdone
      cases hb : g'.body? n with
      | none =>
        rw [hb] at hdone
        cases hdone
      | some body' =>
        rw [hb] at hn hdone
        cases ho with
        | body hbody ho =>
          rw [hbody] at hn
          cases hn with
          | some halike =>
            exact ih _ _ halike (hinput.of_part (.body hb (.self _))) _ _ _ _ ho hdone
        | undefined hnone =>
          rw [hnone] at hn
          cases hn

/-- What one parse answers, and the other, for the same pattern. -/
def AnswersAgree (answer : Answer UInt8) (nodes : List Node) : Prop :=
  (∃ n, nodes = [n] ∧ answer = .matched n.value) ∨ (nodes = [] ∧ answer = .noMatch)

/-- A parse that ends answers as the only candidate does. -/
theorem answersAgree_of_exact {rule : Abnf.Rule UInt8} (hg : g.Plain) (hrule : rule.Plain)
    {fuel : Nat} {answer : Answer UInt8} {nodes : List Node}
    (hexact : rule.Exact g fuel (.ofList input) answer)
    (hagree : ∀ o, rule.ComesTo g input 0 o → Agree 0 o nodes)
    (hvalues : ∀ n ∈ nodes, n.value <+: input) : AnswersAgree answer nodes := by
  have hcomes : ∀ o u, rule.apply g fuel (Scanner.ofSource (.ofList input)) = some (o, u) →
      rule.ComesTo g input 0 o := fun o u h =>
    Abnf.Rule.comesTo_of_apply hg fuel rule _ o u hrule (.ofSource _)
      (Scanner.reads_ofSource (Source.delivers_ofList input)) h
  cases answer with
  | matched symbols =>
    obtain ⟨u, hu, -, hsymbols⟩ := hexact
    rw [Source.contents_ofList] at hsymbols
    rcases hagree _ (hcomes _ u hu) with ⟨ho, -⟩ | ⟨n, ho, rfl⟩
    · cases ho
    · have hlength : symbols.length = n.value.length := by simpa [Node.length] using ho
      have hvalue : symbols = n.value := by
        rw [List.prefix_iff_eq_take.mp hsymbols, hlength]
        exact (List.prefix_iff_eq_take.mp (hvalues n List.mem_cons_self)).symm
      exact .inl ⟨n, rfl, by rw [hvalue]⟩
  | noMatch =>
    obtain ⟨u, hu⟩ := hexact
    rcases hagree _ (hcomes _ u hu) with ⟨-, rfl⟩ | ⟨n, ho, -⟩
    · exact .inr ⟨rfl, rfl⟩
    · cases ho
  | failed misuse =>
    obtain ⟨u, hu⟩ := hexact
    rcases hagree _ (hcomes _ u hu) with ⟨ho, -⟩ | ⟨n, ho, -⟩ <;> cases ho
  | noLength span => exact hexact.elim

/-- **Where choice is unambiguous, match and parse tree agree.**  Take the same pattern with all its
nonterminals defined, and an input at no place of which two branches of a choice answer anything.  If
both parses come to an end, neither fails; there is at most one candidate, which holds the bytes that
were matched, and there is none if nothing was. -/
theorem parses_agree {rule : Abnf.Rule UInt8} {rule' : Rule} (hg : Grammar.Alike g g')
    (hrule : Alike rule rule') (hdefined : ∀ n, Part g' rule' (.nonterminal n) → g'.isDefined n)
    (hinput : Unambiguous g' rule' input) {fuel fuel' : Nat} {reporting : Bool}
    {answer : Answer UInt8} {s : Scanner UInt8}
    (hmatch : rule.parse g fuel reporting (.ofList input) = some (answer, s))
    (htree : rule'.parse g' fuel' input ≠ .unfinished) :
    ∃ found records, rule'.parse g' fuel' input = .done found records ∧ found.size ≤ 1 ∧
      (∀ v, answer = .matched v ↔ ∃ n, found.nodes = [n] ∧ n.value = v) ∧
      (answer = .noMatch ↔ found.nodes = []) ∧
      (∀ misuse, answer ≠ .failed misuse) ∧ ∀ span, answer ≠ .noLength span := by
  obtain ⟨hplain, hplain'⟩ := hg.plain
  have hexact := Abnf.Rule.exact_of_parse
    (Abnf.Rule.plain_keepsContract hplain hrule.plain.1 fuel) hmatch
  unfold parse at htree ⊢
  cases happly : rule'.apply g' fuel' input with
  | done found records =>
    have hagree : AnswersAgree answer found.nodes := by
      refine answersAgree_of_exact hplain hrule.plain.1 hexact (fun o ho => ?_) (fun n hn => ?_)
      · exact agree_of_apply hg fuel' rule rule' hrule hinput 0 o found records ho happly
      · exact Derives.value_prefix
          (derives_of_apply hplain' fuel' rule' hrule.plain.2 _ _ _ happly n hn)
    refine ⟨found, _, rfl, ?_⟩
    obtain ⟨nodes⟩ := found
    rcases hagree with ⟨n, rfl, rfl⟩ | ⟨rfl, rfl⟩
    · simp [Candidates.size]
    · simp [Candidates.size]
  | failed misuse records =>
    obtain ⟨n, hn, hnone, -⟩ := failsIn_of_apply hplain' fuel' rule' hrule.plain.2 input _ _ happly
    have hsome := hdefined n hn
    simp [Grammar.isDefined, hnone] at hsome
  | unfinished =>
    rw [happly] at htree
    exact absurd rfl htree

theorem Answers.exists_derives {rule : Rule} (h : Answers g' rule input) (hg : Grammar.Plain g')
    (hrule : rule.Plain) : ∃ n, Derives g' rule input n := by
  obtain ⟨fuel, found, records, hdone, hne⟩ := h
  obtain ⟨n, hn⟩ := List.exists_mem_of_ne_nil _ hne
  exact ⟨n, derives_of_apply hg fuel rule hrule input found records hdone n hn⟩

/-- Brackets in brackets around an `x`, and then a `y` that is needed twice but may be left out. -/
def bracketRules : Grammar (Abnf.Rule UInt8) :=
  ⟨2, [(0, .concat [.nonterminal ⟨1, "b"⟩, .repetition (.atLeast 2) (.optional (.literal [121]))]),
    (1, .choice [.concat [.literal [40], .nonterminal ⟨1, "b"⟩, .literal [41]], .literal [120]])]⟩

/-- The same, to be recorded in parse trees. -/
def bracketTrees : Grammar Rule :=
  ⟨2, [(0, .concat "s" [.nonterminal ⟨1, "b"⟩,
      .repetition "r" (.atLeast 2) (optional "o" (.terminal "y" [121]))]),
    (1, .choice "b" [.concat "p" [.terminal "(" [40], .nonterminal ⟨1, "b"⟩, .terminal ")" [41]],
      .terminal "x" [120]])]⟩

/-- Both ways to parse take all of it. -/
theorem parses_agree_of_brackets :
    ∃ found records, parse bracketTrees 12 (.nonterminal ⟨0, "s"⟩) [40, 40, 120, 41, 41, 121] =
      .done found records ∧ ∃ n, found.nodes = [n] ∧ n.value = [40, 40, 120, 41, 41, 121] := by
  have hg : Grammar.Alike bracketRules bracketTrees := by
    intro n
    simp only [Grammar.body?, bracketRules, bracketTrees, List.lookup_cons, List.lookup_nil]
    split
    · exact .some (.concat _ (.cons (.nonterminal _)
        (.cons (.repetition _ _ (.optional _ (.literal _ _))) .nil)))
    · split
      · exact .some (.choice _ (.cons (.concat _ (.cons (.literal _ _) (.cons (.nonterminal _)
          (.cons (.literal _ _) .nil)))) (.cons (.literal _ _) .nil)))
      · exact .none
  -- No other nonterminals and no other choice than these are part of the rule.
  have hparts : ∀ part, Part bracketTrees (.nonterminal ⟨0, "s"⟩) part → part ∈
      [nonterminal ⟨0, "s"⟩, nonterminal ⟨1, "b"⟩, .concat "s" [.nonterminal ⟨1, "b"⟩,
        .repetition "r" (.atLeast 2) (optional "o" (.terminal "y" [121]))],
      .repetition "r" (.atLeast 2) (optional "o" (.terminal "y" [121])),
      optional "o" (.terminal "y" [121]), .terminal "y" [121],
      .choice "b" [.concat "p" [.terminal "(" [40], .nonterminal ⟨1, "b"⟩, .terminal ")" [41]],
        .terminal "x" [120]],
      .concat "p" [.terminal "(" [40], .nonterminal ⟨1, "b"⟩, .terminal ")" [41]],
      .terminal "x" [120], .terminal "(" [40], .terminal ")" [41]] := by
    refine fun part hpart => Part.keeps ?_ ?_ ?_ ?_ hpart List.mem_cons_self
    · intro key rules h
      simp [optional] at h
      rcases h with ⟨-, rfl⟩ | ⟨-, rfl⟩ <;> simp [optional]
    · intro key rules h
      simp [optional] at h
      rcases h with ⟨-, rfl⟩
      simp
    · intro key b rule h
      simp [optional] at h
      rcases h with ⟨-, -, rfl⟩ | ⟨-, -, rfl⟩ <;> simp [optional]
    · intro n body hb _
      simp only [Grammar.body?, bracketTrees, List.lookup_cons, List.lookup_nil] at hb
      split at hb
      · cases hb
        simp
      · split at hb <;> cases hb
        simp
  have hdefined : ∀ n, Part bracketTrees (.nonterminal ⟨0, "s"⟩) (.nonterminal n) →
      bracketTrees.isDefined n := by
    intro n hn
    have hmem := hparts _ hn
    simp [optional] at hmem
    rcases hmem with rfl | rfl <;> rfl
  have hinput : Unambiguous bracketTrees (.nonterminal ⟨0, "s"⟩) [40, 40, 120, 41, 41, 121] := by
    intro key rules hchoice rest _
    have hmem := hparts _ hchoice
    simp [optional] at hmem
    rcases hmem with ⟨-, rfl⟩
    rw [List.pairwise_pair]
    rintro ⟨hopen, hx⟩
    obtain ⟨m, hm⟩ := hopen.exists_derives hg.plain.2 (by simp)
    obtain ⟨n, hn⟩ := hx.exists_derives hg.plain.2 (by simp)
    cases hn with
    | terminal hx => cases hm with
      | concat hm => cases hm with
        | cons hm _ => cases hm with
          | terminal hopen =>
            obtain ⟨_, rfl⟩ := hopen
            simp at hx
  have htree : parse bracketTrees 12 (.nonterminal ⟨0, "s"⟩) [40, 40, 120, 41, 41, 121] ≠
      .unfinished := by
    decide +kernel
  have hanswer : (Abnf.Rule.parse bracketRules 16 false (.nonterminal ⟨0, "s"⟩)
      (.ofList [40, 40, 120, 41, 41, 121])).map (·.1) = some (.matched [40, 40, 120, 41, 41, 121]) := by
    decide +kernel
  obtain ⟨⟨_, s⟩, hmatch, rfl⟩ := Option.map_eq_some_iff.mp hanswer
  obtain ⟨found, records, hdone, -, hvalue, -⟩ :=
    parses_agree hg (.nonterminal _) hdefined hinput hmatch htree
  exact ⟨found, records, hdone, (hvalue _).mp rfl⟩

end Rule

end Abnf.Tree
