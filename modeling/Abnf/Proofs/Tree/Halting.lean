import Abnf.Proofs.Halting
import Abnf.Proofs.Tree.Derivation

/-!
# Abnf.Proofs.Tree.Halting — parse trees of grammars without left recursion

As for matching, with what is left of the input as the measure.  Every candidate is followed up, not
only the best one, but there are finitely many; a candidate that matches nothing is one of a rule that
can, because it is a derivation.

* `Trial.Ends.bind`: trials that end one after another.
* `Rule.haltsAt_of_first`: a rule ends if the nonterminals that stand first in it do.
* `applications_end`: both ways to apply rules.
-/

namespace Abnf.Tree

/-! ### Trials that end -/

/-- The trial comes to an end, and to the same one with more fuel. -/
def Trial.Ends {β : Type} (t : Nat → Trial β) : Prop :=
  ∃ n c, c ≠ .unfinished ∧ ∀ fuel, n ≤ fuel → t fuel = c

namespace Trial

variable {β γ : Type}

theorem ends_done (b : β) (records : List Record) : Ends fun _ => Trial.done b records :=
  ⟨0, _, by simp, fun _ _ => rfl⟩

theorem ends_failed (misuse : Misuse) (records : List Record) :
    Ends fun _ => (Trial.failed misuse records : Trial β) :=
  ⟨0, _, by simp, fun _ _ => rfl⟩

theorem Ends.bind {t : Nat → Trial β} {f : Nat → β → Trial γ} (ht : Ends t)
    (hf : ∀ fuel b records, t fuel = .done b records → Ends fun k => f k b) :
    Ends fun fuel => t fuel >>= f fuel := by
  obtain ⟨n, c, hc, hn⟩ := ht
  cases c with
  | done b records =>
    obtain ⟨m, d, hd, hm⟩ := hf n b records (hn n le_rfl)
    refine ⟨max n m, d.after records, fun hafter => ?_, fun fuel hfuel => ?_⟩
    · cases d with
      | done | failed => cases hafter
      | unfinished => exact hd rfl
    · have hfirst := hn fuel ((le_max_left n m).trans hfuel)
      have hnext := hm fuel ((le_max_right n m).trans hfuel)
      dsimp only at hnext ⊢
      rw [hfirst, done_bind, hnext]
  | failed misuse records =>
    refine ⟨n, .failed misuse records, by simp, fun fuel hfuel => ?_⟩
    dsimp only
    rw [hn fuel hfuel, failed_bind]
  | unfinished => exact absurd rfl hc

/-- What ends with less fuel ends. -/
theorem Ends.of_succ {t : Nat → Trial β} (h : Ends fun fuel => t (fuel + 1)) : Ends t := by
  obtain ⟨n, c, hc, hn⟩ := h
  refine ⟨n + 1, c, hc, fun fuel hfuel => ?_⟩
  obtain ⟨fuel, rfl⟩ : ∃ k, fuel = k + 1 := ⟨fuel - 1, by omega⟩
  exact hn fuel (by omega)

end Trial

theorem Parser.collect_ends {f : Nat → Node → Trial (Option Node)} {nodes : List Node}
    (h : ∀ n ∈ nodes, Trial.Ends fun fuel => f fuel n) :
    Trial.Ends fun fuel => collect (f fuel) nodes := by
  induction nodes with
  | nil => exact Trial.ends_done _ _
  | cons n rest ih =>
    refine (h n List.mem_cons_self).bind fun _ _ _ _ => ?_
    refine (ih fun m hm => h m (List.mem_cons_of_mem _ hm)).bind fun _ _ _ _ => ?_
    exact Trial.ends_done _ _

namespace Rule

/-! ### Rules that can match nothing, and nonterminals that stand first -/

/-- Can match nothing. -/
inductive Nullable (g : Grammar Rule) : Rule → Prop
  | terminal (key : String) : Nullable g (.terminal key [])
  | concat (key : String) {rules : List Rule} (h : ∀ r ∈ rules, Nullable g r) :
    Nullable g (.concat key rules)
  | choice (key : String) {rules : List Rule} {r : Rule} (hr : r ∈ rules) (h : Nullable g r) :
    Nullable g (.choice key rules)
  | noStep (key : String) {b : Bounds} (hmin : b.min = 0) (rule : Rule) :
    Nullable g (.repetition key b rule)
  | repetition (key : String) (b : Bounds) {rule : Rule} (h : Nullable g rule) :
    Nullable g (.repetition key b rule)
  | nonterminal {n : Nonterminal} {body : Rule} (hb : g.body? n = some body) (h : Nullable g body) :
    Nullable g (.nonterminal n)

/-- The number of a nonterminal that stands in the rule behind nothing but what can match nothing. -/
inductive First (g : Grammar Rule) : Rule → Nat → Prop
  | nonterminal (n : Nonterminal) : First g (.nonterminal n) n.id
  | concatHead (key : String) {first : Rule} {rest : List Rule} {i : Nat} (h : First g first i) :
    First g (.concat key (first :: rest)) i
  | concatTail {key : String} {first : Rule} {rest : List Rule} {i : Nat}
    (hfirst : Nullable g first) (h : First g (.concat key rest) i) :
    First g (.concat key (first :: rest)) i
  | choice (key : String) {rules : List Rule} {r : Rule} {i : Nat} (hr : r ∈ rules)
    (h : First g r i) : First g (.choice key rules) i
  | repetition (key : String) (b : Bounds) {rule : Rule} {i : Nat} (h : First g rule i) :
    First g (.repetition key b rule) i

variable {g : Grammar Rule} {rule : Rule} {rules : List Rule}

mutual

/-- A derivation that matches nothing is of a rule that can. -/
theorem Derives.nullable {rule : Rule} {input : List UInt8} {n : Node} :
    Derives g rule input n → n.value = [] → Nullable g rule
  | @Derives.terminal _ _ [] _ _, _ => .terminal _
  | @Derives.terminal _ _ (_ :: _) _ _, hvalue => nomatch hvalue
  | .range _, hvalue => nomatch hvalue
  | .oneOf _, hvalue => nomatch hvalue
  | .concat h, hvalue => .concat _ (h.nullable hvalue)
  | .choice hr h, hvalue => .choice _ hr (h.nullable hvalue)
  | @Derives.repetition _ _ _ _ _ children hmin _ h, hvalue => by
    have hrules := h.nullable hvalue
    cases children with
    | nil => exact .noStep _ (Nat.le_zero.mp hmin) _
    | cons child rest => exact .repetition _ _ (hrules _ (by simp))
  | .body hb h, hvalue => .nonterminal hb (h.nullable hvalue)

theorem DeriveInOrder.nullable {rules : List Rule} {input : List UInt8} {nodes : List Node} :
    DeriveInOrder g rules input nodes → Node.valueList nodes = [] → ∀ r ∈ rules, Nullable g r
  | .nil, _, _, hr => nomatch hr
  | .cons h hrest, hvalue, r, hr => by
    rw [Node.valueList, List.flatMap_cons, List.append_eq_nil_iff] at hvalue
    have hfirst := h.nullable hvalue.1
    have hothers := hrest.nullable hvalue.2
    rcases List.mem_cons.mp hr with rfl | hr
    · exact hfirst
    · exact hothers r hr

end

/-! ### Applications that end -/

/-- Every application to so many bytes ends. -/
def HaltsAt (g : Grammar Rule) (k : Nat) (rule : Rule) : Prop :=
  ∀ input : List UInt8, input.length = k → Trial.Ends fun fuel => rule.apply g fuel input

section Combinators

variable {k : Nat} {key : String} {input : List UInt8}

/-- The rest of a concatenation, behind rules that have matched something or can match nothing. -/
theorem extend_ends (hg : Grammar.Plain g) : ∀ (rules : List Rule) (offset : Nat),
    (∀ r ∈ rules, r.Plain) → (∀ j < k, ∀ r ∈ rules, HaltsAt g j r) →
    (∀ r ∈ rules, (∀ n : Nonterminal, First g r n.id → HaltsAt g k (.nonterminal n)) →
      HaltsAt g k r) →
    (input.drop offset).length ≤ k →
    ((input.drop offset).length = k → ∀ n : Nonterminal, First g (.concat key rules) n.id →
      HaltsAt g k (.nonterminal n)) →
    Trial.Ends fun fuel => Parser.extend key input (rules.map (apply g fuel)) offset
  | [], _, _, _, _, _, _ => Trial.ends_done _ _
  | rule :: rest, offset, hplain, hbelow, hat, hle, hfirst => by
    have hrule := hplain rule List.mem_cons_self
    have hhalts : HaltsAt g (input.drop offset).length rule := by
      rcases hle.lt_or_eq with hlt | heq
      · exact hbelow _ hlt rule List.mem_cons_self
      · rw [heq]
        exact hat rule List.mem_cons_self fun m hm => hfirst heq m (.concatHead key hm)
    refine (hhalts _ rfl).bind fun fuel found records hfound => ?_
    refine (Parser.collect_ends fun n hn => ?_).bind fun _ _ _ _ => Trial.ends_done _ _
    have hderives := derives_of_apply hg fuel rule hrule _ _ _ hfound n hn
    have hfits := hderives.length_le
    rw [List.length_drop] at hle hfirst hfits
    simp only [Parser.checkFits, List.length_drop, hfits, if_true, pure_bind]
    refine Trial.Ends.bind ?_ fun _ _ _ _ => Trial.ends_done _ _
    refine extend_ends hg rest _ (fun r hmem => hplain r (List.mem_cons_of_mem _ hmem))
      (fun j hj r hmem => hbelow j hj r (List.mem_cons_of_mem _ hmem))
      (fun r hmem => hat r (List.mem_cons_of_mem _ hmem)) ?_ ?_
    · rw [List.length_drop]
      omega
    · intro heq m hm
      rw [List.length_drop] at heq
      -- Nothing was matched so far, so the rule can match nothing.
      have hnothing : n.value = [] := List.length_eq_zero_iff.mp (by rw [← Node.length]; omega)
      exact hfirst (by omega) m (.concatTail (hderives.nullable hnothing) hm)

theorem choice_ends : ∀ {rules : List Rule}, (∀ r ∈ rules, HaltsAt g k r) → input.length = k →
    Trial.Ends fun fuel => Parser.choice key (rules.map (apply g fuel)) input
  | [], _, _ => Trial.ends_done _ _
  | rule :: rest, hat, hk => by
    refine (hat rule List.mem_cons_self input hk).bind fun _ _ _ _ => ?_
    refine (choice_ends (fun r hmem => hat r (List.mem_cons_of_mem _ hmem)) hk).bind
      fun _ _ _ _ => ?_
    exact Trial.ends_done _ _

/-- **Steps come to an end**: each but the last matches something. -/
theorem steps_ends {b : Bounds} (hhalts : ∀ j ≤ k, HaltsAt g j rule) :
    ∀ (count : Nat) (input : List UInt8), input.length ≤ k →
      Trial.Ends fun fuel => Parser.steps b (rule.apply g fuel) input count := by
  intro count input hle
  induction hj : input.length using Nat.strongRecOn generalizing count input with
  | ind j ih =>
    by_cases hmore : b.allowMore count
    · have hfirst := hhalts _ hle input rfl
      simp only [Parser.steps.eq_def b _ input, hmore, if_true]
      refine hfirst.bind fun fuel found records _ => ?_
      cases hbest : found.best? with
      | none => exact Trial.ends_done _ _
      | some step =>
        dsimp only
        split
        · exact Trial.ends_done _ _
        · rename_i hempty
          rw [Node.isEmpty_iff] at hempty
          split
          · have hlength := List.length_drop (i := step.length) (l := input)
            refine Trial.Ends.bind ?_ fun _ _ _ _ => Trial.ends_done _ _
            exact ih _ (by omega) (count + 1) _ (by omega) rfl
          · exact Trial.ends_failed _ _
    · simp only [Parser.steps.eq_def b _ input, hmore]
      exact Trial.ends_done _ _

end Combinators

/-- **What a rule needs to end** where all rules end on less input: that the nonterminals that stand
first in it do.  One case for each constructor. -/
theorem haltsAt_of_first (hg : Grammar.Plain g) {k : Nat}
    (hbelow : ∀ j < k, ∀ r : Rule, r.Plain → HaltsAt g j r) (hrule : rule.Plain) :
    (∀ n : Nonterminal, First g rule n.id → HaltsAt g k (.nonterminal n)) → HaltsAt g k rule := by
  induction hrule with
  | terminal => exact fun _ input _ => .of_succ (Trial.ends_done _ _)
  | range | oneOf =>
    intro _ input _
    refine .of_succ ?_
    cases input <;> exact Trial.ends_done _ _
  | @concat key rules hplain ih =>
    intro hfirst input hk
    refine .of_succ (Trial.Ends.bind ?_ fun _ _ _ _ => Trial.ends_done _ _)
    exact extend_ends hg rules 0 hplain (fun j hj r hmem => hbelow j hj r (hplain r hmem)) ih hk.le
      fun _ => hfirst
  | @choice key rules hplain ih =>
    intro hfirst input hk
    refine .of_succ (choice_ends (fun r hmem => ?_) hk)
    exact ih r hmem fun n hn => hfirst n (.choice key hmem hn)
  | @repetition key b rule hplain ih =>
    intro hfirst input hk
    have hhalts : ∀ j ≤ k, HaltsAt g j rule := by
      intro j hj
      rcases hj.lt_or_eq with hlt | rfl
      · exact hbelow j hlt rule hplain
      · exact ih fun n hn => hfirst n (.repetition key b hn)
    refine .of_succ ?_
    simp only [apply_succ, parser, Parser.repetition]
    split
    · refine (steps_ends hhalts 0 input hk.le).bind fun _ children _ _ => ?_
      split
      · exact Trial.ends_done _ _
      · exact Trial.ends_done _ _
    · exact Trial.ends_done _ _
  | nonterminal n => exact fun hfirst => hfirst n (.nonterminal n)

/-- **Without left recursion, every application ends.** -/
theorem haltsAt (hg : Grammar.Plain g) (hrec : ¬ g.LeftRecursive (First g)) (k : Nat) :
    ∀ rule : Rule, rule.Plain → HaltsAt g k rule := by
  refine Grammar.forall_of_calls .nonterminal hrec hg (fun k rule hrule hbelow => ?_)
    (fun k n hbody => ?_) k
  · exact haltsAt_of_first hg hbelow hrule
  · intro input hk
    refine .of_succ ?_
    simp only [apply_succ, parser]
    cases hb : g.body? n with
    | none => exact Trial.ends_failed _ _
    | some body => exact hbody body hb input hk

end Rule

end Abnf.Tree

namespace Abnf

/-! ### Both ways to apply rules -/

/-- **Grammars without left recursion come to an end.**  Take rules without custom scripts, of which no
nonterminal leads back to itself by what stands behind nothing but what can match nothing.  Whatever
a scanner went through and whatever its source still answers, the application of a rule to it ends, and
so does the application of a rule for parse trees to any input; more fuel changes nothing. -/
theorem applications_end {α : Type} [Symbol α] :
    (∀ (g : Grammar (Rule α)) (rule : Rule α), g.Plain → rule.Plain →
      ¬ g.LeftRecursive (Rule.First g) →
      ∀ (source : Source α) (s : Scanner α), Scanner.Reaches (.ofSource source) s →
        ∃ n x, ∀ fuel, n ≤ fuel → rule.apply g fuel s = some x) ∧
    ∀ (g : Grammar Tree.Rule) (rule : Tree.Rule), Tree.Grammar.Plain g → rule.Plain →
      ¬ g.LeftRecursive (Tree.Rule.First g) →
      ∀ input : List UInt8,
        ∃ n c, c ≠ .unfinished ∧ ∀ fuel, n ≤ fuel → rule.apply g fuel input = c := by
  refine ⟨fun g rule hg hrule hrec source s hs => ?_, fun g rule hg hrule hrec input => ?_⟩
  · have hordered : s.Ordered := (Scanner.Ordered.ofSource source).steps hs.steps
    obtain ⟨n, x, hx⟩ := Rule.haltsAt hg hrec s.ahead rule hrule s hordered rfl
    exact ⟨n, x, fun fuel hfuel => Rule.apply_mono g hfuel _ _ _ hx⟩
  · exact Tree.Rule.haltsAt hg hrec input.length rule hrule input rfl

/-- A list is any number of options and then at least two items, which may be left out; an item is a list
in brackets.  Both repetitions are without end and over what can match nothing. -/
def listRules : Grammar (Rule Char) :=
  ⟨3, [(0, .concat [.symbol '(', .nonterminal ⟨2, "list"⟩, .symbol ')']),
    (1, .repetition (.atLeast 2) (.optional (.nonterminal ⟨0, "item"⟩))),
    (2, .concat [.repetition (.atLeast 0) (.optional (.symbol 'x')), .nonterminal ⟨1, "items"⟩])]⟩

/-- The same, to be recorded in parse trees. -/
def listTrees : Grammar Tree.Rule :=
  ⟨3, [(0, .concat "item" [.terminal "open" [40], .nonterminal ⟨2, "list"⟩, .terminal "close" [41]]),
    (1, .repetition "items" (.atLeast 2) (.optional "item?" (.nonterminal ⟨0, "item"⟩))),
    (2, .concat "list" [.repetition "xs" (.atLeast 0) (.optional "x?" (.terminal "x" [120])),
      .nonterminal ⟨1, "items"⟩])]⟩

/-- The first application is to a scanner that has met an end of its source already. -/
theorem applications_end_of_lists :
    (∃ n x, ∀ fuel, n ≤ fuel → (Rule.nonterminal ⟨2, "list"⟩).apply listRules fuel
        (Scanner.ofSource (.ofItems [none, some 'x', none, some '('])).peek.2 = some x) ∧
      ∃ n c, c ≠ .unfinished ∧ ∀ fuel, n ≤ fuel →
        (Tree.Rule.nonterminal ⟨2, "list"⟩).apply listTrees fuel [120, 40, 41] = c := by
  have hrules : listRules.Plain := by
    intro n body h
    have hmem := Grammar.mem_bodies_of_lookup h
    simp only [listRules, List.mem_cons, List.not_mem_nil, Prod.mk.injEq, or_false] at hmem
    rcases hmem with ⟨-, rfl⟩ | ⟨-, rfl⟩ | ⟨-, rfl⟩ <;> simp
  have htrees : Tree.Grammar.Plain listTrees := by
    intro n body h
    have hmem := Grammar.mem_bodies_of_lookup h
    simp only [listTrees, List.mem_cons, List.not_mem_nil, Prod.mk.injEq, or_false] at hmem
    rcases hmem with ⟨-, rfl⟩ | ⟨-, rfl⟩ | ⟨-, rfl⟩ <;> simp [Tree.Rule.optional]
  -- A list leads to its items, those to an item, and that to nothing, for its bracket comes first.
  have hcalls : ∀ i j, listRules.Calls (Rule.First listRules) i j → j < i := by
    rintro i j ⟨body, hb, hj⟩
    have hmem := Grammar.mem_bodies_of_lookup hb
    simp only [listRules, List.mem_cons, List.not_mem_nil, Prod.mk.injEq, or_false] at hmem
    rcases hmem with ⟨rfl, rfl⟩ | ⟨rfl, rfl⟩ | ⟨rfl, rfl⟩
    · cases hj with
      | concatHead h => cases h
      | concatTail hfirst _ => cases hfirst
    · cases hj with
      | repetition _ h => cases h with
        | optional h => cases h with
          | nonterminal => exact Nat.zero_lt_one
    · cases hj with
      | concatHead h => cases h with
        | repetition _ h => cases h with
          | optional h => cases h
      | concatTail _ h => cases h with
        | concatHead h => cases h with
          | nonterminal => exact Nat.one_lt_two
        | concatTail _ h => cases h
  have hcalls' : ∀ i j, listTrees.Calls (Tree.Rule.First listTrees) i j → j < i := by
    rintro i j ⟨body, hb, hj⟩
    have hmem := Grammar.mem_bodies_of_lookup hb
    simp only [listTrees, List.mem_cons, List.not_mem_nil, Prod.mk.injEq, or_false] at hmem
    rcases hmem with ⟨rfl, rfl⟩ | ⟨rfl, rfl⟩ | ⟨rfl, rfl⟩
    · cases hj with
      | concatHead _ h => cases h
      | concatTail hfirst _ => cases hfirst
    · cases hj with
      | repetition _ _ h => cases h with
        | repetition _ _ h => cases h with
          | nonterminal => exact Nat.zero_lt_one
    · cases hj with
      | concatHead _ h => cases h with
        | repetition _ _ h => cases h with
          | repetition _ _ h => cases h
      | concatTail _ h => cases h with
        | concatHead _ h => cases h with
          | nonterminal => exact Nat.one_lt_two
        | concatTail _ h => cases h
  have hend := applications_end (α := Char)
  exact ⟨hend.1 listRules _ hrules (.nonterminal _) (Grammar.not_leftRecursive_of_lt hcalls) _ _
      (.step .refl (.peek _)),
    hend.2 listTrees _ htrees (.nonterminal _) (Grammar.not_leftRecursive_of_lt hcalls') _⟩

end Abnf
