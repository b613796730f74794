import Abnf.Proofs.Tree.Parts
import Abnf.Tree.Rule
import Abnf.Tree.Walk

/-!
# Abnf.Proofs.Tree.Derivation — parse trees are derivations

`Rule.Derives g rule input n`: the node is a derivation of the rule from the beginning of the input.
A leaf holds what its rule accepts, and any other node has the children that its rule asks for, each
a derivation of its sub-rule from where the one before it ends.  Nothing is said of which derivation
is chosen.

* `Rule.derives_of_apply`, `Rule.failsIn_of_apply`: what an application answers, by induction on fuel.
* `Rule.candidates_derive`: the candidates and all nodes in them, and the only failure.
-/

namespace Abnf.Tree

/-- What several nodes match one after another. -/
def Node.valueList (nodes : List Node) : List UInt8 := nodes.flatMap Node.value

theorem Node.length_valueList (nodes : List Node) :
    (Node.valueList nodes).length = Node.lengthList nodes := by
  induction nodes with
  | nil => rfl
  | cons n rest ih =>
    rw [valueList] at ih
    rw [valueList, List.flatMap_cons, List.length_append, ih]
    rfl

/-! ### How rules are put together -/

namespace Rule

/-- Without custom functions. -/
inductive Plain : Rule → Prop
  | terminal (key : String) (expected : List UInt8) : Plain (.terminal key expected)
  | range (key : String) (low high : UInt8) : Plain (.range key low high)
  | oneOf (key : String) (candidates : List UInt8) : Plain (.oneOf key candidates)
  | concat (key : String) {rules : List Rule} (h : ∀ r ∈ rules, Plain r) : Plain (.concat key rules)
  | choice (key : String) {rules : List Rule} (h : ∀ r ∈ rules, Plain r) : Plain (.choice key rules)
  | repetition (key : String) (bounds : Bounds) {rule : Rule} (h : Plain rule) :
    Plain (.repetition key bounds rule)
  | nonterminal (n : Nonterminal) : Plain (.nonterminal n)

attribute [simp] Plain.terminal Plain.range Plain.oneOf Plain.nonterminal

@[simp] theorem plain_concat_iff {key : String} {rules : List Rule} :
    (concat key rules).Plain ↔ ∀ r ∈ rules, r.Plain :=
  ⟨fun | .concat _ h => h, .concat key⟩

@[simp] theorem plain_choice_iff {key : String} {rules : List Rule} :
    (choice key rules).Plain ↔ ∀ r ∈ rules, r.Plain :=
  ⟨fun | .choice _ h => h, .choice key⟩

@[simp] theorem plain_repetition_iff {key : String} {b : Bounds} {rule : Rule} :
    (repetition key b rule).Plain ↔ rule.Plain :=
  ⟨fun | .repetition _ _ h => h, .repetition key b⟩

end Rule

/-- Without custom functions in any body. -/
def Grammar.Plain (g : Grammar Rule) : Prop := ∀ n body, g.body? n = some body → body.Plain

namespace Rule

/-- The rule itself, its sub-rules and theirs, through the bodies of nonterminals as well. -/
inductive Part (g : Grammar Rule) : Rule → Rule → Prop
  | self (rule : Rule) : Part g rule rule
  | concat {key : String} {rules : List Rule} {r part : Rule} (hr : r ∈ rules) (h : Part g r part) :
    Part g (.concat key rules) part
  | choice {key : String} {rules : List Rule} {r part : Rule} (hr : r ∈ rules) (h : Part g r part) :
    Part g (.choice key rules) part
  | repetition {key : String} {bounds : Bounds} {rule part : Rule} (h : Part g rule part) :
    Part g (.repetition key bounds rule) part
  | body {n : Nonterminal} {body part : Rule} (hb : g.body? n = some body) (h : Part g body part) :
    Part g (.nonterminal n) part

/-- What the rule calls its matches; a nonterminal leaves that to its body. -/
def key? : Rule → Option String
  | .terminal key _ | .range key _ _ | .oneOf key _ | .concat key _ | .choice key _
  | .repetition key _ _ => some key
  | .nonterminal _ | .custom _ => none

/-- Whether the matches of the rule are made of those of other rules. -/
def isCompound : Rule → Bool
  | .concat _ _ | .choice _ _ | .repetition _ _ _ => true
  | .terminal _ _ | .range _ _ _ | .oneOf _ _ | .nonterminal _ | .custom _ => false

variable {g : Grammar Rule}

theorem Part.trans {rule part inner : Rule} (h : Part g rule part) (h' : Part g part inner) :
    Part g rule inner := by
  induction h with
  | self => exact h'
  | concat hr _ ih => exact .concat hr (ih h')
  | choice hr _ ih => exact .choice hr (ih h')
  | repetition _ ih => exact .repetition (ih h')
  | body hb _ ih => exact .body hb (ih h')

/-- What passes to sub-rules and from nonterminals to their bodies passes to all parts. -/
theorem Part.keeps {P : Rule → Prop} (hconcat : ∀ key rules, P (.concat key rules) → ∀ r ∈ rules, P r)
    (hchoice : ∀ key rules, P (.choice key rules) → ∀ r ∈ rules, P r)
    (hrepetition : ∀ key b rule, P (.repetition key b rule) → P rule)
    (hbody : ∀ n body, g.body? n = some body → P (.nonterminal n) → P body) {rule part : Rule}
    (h : Part g rule part) (hrule : P rule) : P part := by
  induction h with
  | self => exact hrule
  | concat hr _ ih => exact ih (hconcat _ _ hrule _ hr)
  | choice hr _ ih => exact ih (hchoice _ _ hrule _ hr)
  | repetition _ ih => exact ih (hrepetition _ _ _ hrule)
  | body hb _ ih => exact ih (hbody _ _ hb hrule)

/-- The failure of a nonterminal that is part of a rule and has no body. -/
def Undefined (g : Grammar Rule) (rule : Rule) (misuse : Misuse) : Prop :=
  ∃ n, Part g rule (.nonterminal n) ∧ g.body? n = none ∧ misuse = .unresolvedRule n.name

theorem Undefined.of_part {rule part : Rule} {misuse : Misuse} (h : Undefined g part misuse)
    (hpart : Part g rule part) : Undefined g rule misuse := by
  obtain ⟨n, hn, hm⟩ := h
  exact ⟨n, hpart.trans hn, hm⟩

/-! ### Derivations -/

mutual

/-- The node is a derivation of the rule from the beginning of the input. -/
inductive Derives (g : Grammar Rule) : Rule → List UInt8 → Node → Prop
  | terminal {key : String} {expected input : List UInt8} (h : expected <+: input) :
    Derives g (.terminal key expected) input (.leaf key expected)
  | range {key : String} {low high b : UInt8} {rest : List UInt8} (h : low ≤ b ∧ b ≤ high) :
    Derives g (.range key low high) (b :: rest) (.leaf key [b])
  | oneOf {key : String} {candidates rest : List UInt8} {b : UInt8} (h : b ∈ candidates) :
    Derives g (.oneOf key candidates) (b :: rest) (.leaf key [b])
  | concat {key : String} {rules : List Rule} {input : List UInt8} {children : List Node}
    (h : DeriveInOrder g rules input children) :
    Derives g (.concat key rules) input ⟨key, Node.valueList children, children⟩
  | choice {key : String} {rules : List Rule} {r : Rule} {input : List UInt8} {child : Node}
    (hr : r ∈ rules) (h : Derives g r input child) :
    Derives g (.choice key rules) input ⟨key, child.value, [child]⟩
  | repetition {key : String} {bounds : Bounds} {rule : Rule} {input : List UInt8}
    {children : List Node} (hmin : bounds.min ≤ children.length)
    (hmax : ∀ max, bounds.max = some max → children.length ≤ max)
    (h : DeriveInOrder g (List.replicate children.length rule) input children) :
    Derives g (.repetition key bounds rule) input ⟨key, Node.valueList children, children⟩
  | body {n : Nonterminal} {body : Rule} {input : List UInt8} {m : Node}
    (hb : g.body? n = some body) (h : Derives g body input m) : Derives g (.nonterminal n) input m

/-- As many nodes as rules, each a derivation of its rule from where the ones before it end. -/
inductive DeriveInOrder (g : Grammar Rule) : List Rule → List UInt8 → List Node → Prop
  | nil {input : List UInt8} : DeriveInOrder g [] input []
  | cons {rule : Rule} {rules : List Rule} {input : List UInt8} {n : Node} {nodes : List Node}
    (h : Derives g rule input n) (hrest : DeriveInOrder g rules (input.drop n.length) nodes) :
    DeriveInOrder g (rule :: rules) input (n :: nodes)

end

variable {rule : Rule} {rules : List Rule} {input : List UInt8} {n : Node} {nodes : List Node}

mutual

theorem Derives.value_prefix {rule : Rule} {input : List UInt8} {n : Node} :
    Derives g rule input n → n.value <+: input
  | .terminal h => h
  | .range _ => List.prefix_append _ _
  | .oneOf _ => List.prefix_append _ _
  | .concat h => h.valueList_prefix
  | .choice _ h => h.value_prefix
  | .repetition _ _ h => h.valueList_prefix
  | .body _ h => h.value_prefix

theorem DeriveInOrder.valueList_prefix {rules : List Rule} {input : List UInt8} {nodes : List Node} :
    DeriveInOrder g rules input nodes → Node.valueList nodes <+: input
  | .nil => List.nil_prefix
  | .cons h hrest => by
    have hvalue := h.value_prefix
    have hbehind := hrest.valueList_prefix
    obtain ⟨behind, rfl⟩ := hvalue
    rw [Node.length, List.drop_left] at hbehind
    exact (List.prefix_append_right_inj _).mpr hbehind

end

theorem Derives.length_le (h : Derives g rule input n) : n.length ≤ input.length :=
  h.value_prefix.length_le

/-- Nodes in order match the input up to where the last of them ends. -/
theorem DeriveInOrder.take_eq (h : DeriveInOrder g rules input nodes) :
    input.take (Node.lengthList nodes) = Node.valueList nodes := by
  rw [← Node.length_valueList]
  exact (List.prefix_iff_eq_take.mp h.valueList_prefix).symm

/-! ### Inside a derivation -/

theorem DeriveInOrder.of_mem (h : DeriveInOrder g rules input nodes) :
    ∀ c ∈ nodes, ∃ r ∈ rules, ∃ offset, Derives g r (input.drop offset) c := by
  induction nodes generalizing rules input with
  | nil => simp
  | cons n rest ih =>
    cases h with
    | cons hn hrest =>
      rintro c (_ | ⟨_, hc⟩)
      · exact ⟨_, List.mem_cons_self, 0, hn⟩
      · obtain ⟨r, hr, offset, hderives⟩ := ih hrest c hc
        rw [List.drop_drop] at hderives
        exact ⟨r, List.mem_cons_of_mem _ hr, _, hderives⟩

/-- The rule behind nonterminals that a node is a derivation of. -/
theorem Derives.producer : ∀ {rule : Rule} {input : List UInt8} {n : Node},
    Derives g rule input n → ∃ r, Part g rule r ∧ Derives g r input n ∧ r.key? = some n.key ∧
      (r.isCompound → n.value = Node.valueList n.children)
  | _, _, _, .terminal h => ⟨_, .self _, .terminal h, rfl, nofun⟩
  | _, _, _, .range h => ⟨_, .self _, .range h, rfl, nofun⟩
  | _, _, _, .oneOf h => ⟨_, .self _, .oneOf h, rfl, nofun⟩
  | _, _, _, .concat h => ⟨_, .self _, .concat h, rfl, fun _ => rfl⟩
  | _, _, _, .choice hr h =>
    ⟨_, .self _, .choice hr h, rfl, fun _ => by simp [Node.valueList]⟩
  | _, _, _, .repetition hmin hmax h => ⟨_, .self _, .repetition hmin hmax h, rfl, fun _ => rfl⟩
  | _, _, _, .body hb h => by
    obtain ⟨r, hpart, hr⟩ := h.producer
    exact ⟨r, .body hb hpart, hr⟩

theorem Derives.of_mem_children : ∀ {rule : Rule} {input : List UInt8} {n : Node},
    Derives g rule input n → ∀ c ∈ n.children,
      ∃ r, Part g rule r ∧ ∃ offset, Derives g r (input.drop offset) c
  | _, _, _, .terminal _, _, hc | _, _, _, .range _, _, hc | _, _, _, .oneOf _, _, hc => by cases hc
  | _, _, _, .concat h, c, hc => by
    obtain ⟨r, hr, hderives⟩ := h.of_mem c hc
    exact ⟨r, .concat hr (.self r), hderives⟩
  | _, _, _, .choice hr h, c, hc => by
    obtain rfl := List.mem_singleton.mp hc
    exact ⟨_, .choice hr (.self _), 0, h⟩
  | _, _, _, .repetition _ _ h, c, hc => by
    obtain ⟨r, hr, hderives⟩ := h.of_mem c hc
    obtain rfl := List.eq_of_mem_replicate hr
    exact ⟨r, .repetition (.self r), hderives⟩
  | _, _, _, .body hb h, c, hc => by
    obtain ⟨r, hpart, hderives⟩ := h.of_mem_children c hc
    exact ⟨r, .body hb hpart, hderives⟩

/-- Every node of a derivation is one, from somewhere in the input. -/
theorem Derives.of_mem_walk (h : Derives g rule input n) :
    ∀ m ∈ n.walk.toList, ∃ r, Part g rule r ∧ ∃ offset, Derives g r (input.drop offset) m := by
  refine Walk.forall_mem_toList (fun m hm c hc => ?_) _ (fun m hm => ?_)
  · obtain ⟨r, hpart, offset, hderives⟩ := hm
    obtain ⟨r', hpart', offset', hderives'⟩ := hderives.of_mem_children c hc
    rw [List.drop_drop] at hderives'
    exact ⟨r', hpart.trans hpart', _, hderives'⟩
  · obtain rfl := List.mem_singleton.mp hm
    exact ⟨rule, .self rule, 0, h⟩

/-! ### What an application answers -/

/-- Children that were found one after another by ways to apply rules are derivations in order, if
what those find are derivations. -/
theorem deriveInOrder_of_combination {applyRule : Rule → Parser}
    (h : ∀ r ∈ rules, ∀ input found records, applyRule r input = .done found records →
      ∀ n ∈ found.nodes, Derives g r input n)
    (hc : Parser.Combination (rules.map applyRule) input nodes) : DeriveInOrder g rules input nodes := by
  induction rules generalizing input nodes with
  | nil =>
    cases hc
    exact .nil
  | cons r rest ih =>
    cases hc with
    | cons hr hn _ htail =>
      refine .cons (h r List.mem_cons_self _ _ _ hr _ hn) ?_
      exact ih (fun r hr => h r (List.mem_cons_of_mem _ hr)) htail

theorem mem_byteThat {key : String} {test : UInt8 → Bool} {found : Candidates}
    {records : List Record} (h : Parser.byteThat key test input = .done found records)
    (hn : n ∈ found.nodes) : ∃ b rest, input = b :: rest ∧ test b = true ∧ n = .leaf key [b] := by
  rcases Parser.byteThat_done h with ⟨b, rest, hinput, htest, hone⟩ | ⟨-, hnone⟩
  · rw [hone] at hn
    exact ⟨b, rest, hinput, htest, List.mem_singleton.mp hn⟩
  · simp [hnone] at hn

/-- One case for each constructor: a combinator makes a derivation of those of the sub-rules. -/
theorem derives_of_apply (hg : Grammar.Plain g) : ∀ (fuel : Nat) (rule : Rule), rule.Plain →
    ∀ (input : List UInt8) (found : Candidates) (records : List Record),
      rule.apply g fuel input = .done found records → ∀ n ∈ found.nodes, Derives g rule input n
  | 0, _, _, _, _, _, h => nomatch h
  | fuel + 1, rule, hrule, input, found, records, h => by
    intro n hn
    have ih := derives_of_apply hg fuel
    rw [apply_succ] at h
    cases hrule with
    | terminal =>
      rcases Parser.terminal_done h with ⟨hpre, hone⟩ | ⟨-, hnone⟩
      · rw [hone] at hn
        obtain rfl := List.mem_singleton.mp hn
        exact .terminal hpre
      · simp [hnone] at hn
    | range =>
      obtain ⟨b, rest, rfl, htest, rfl⟩ := mem_byteThat h hn
      exact .range (by simpa using htest)
    | oneOf =>
      obtain ⟨b, rest, rfl, htest, rfl⟩ := mem_byteThat h hn
      exact .oneOf (by simpa using htest)
    | concat key hr =>
      obtain ⟨c, hc, rfl⟩ := Parser.mem_concat h hn
      have horder := deriveInOrder_of_combination (fun r hmem => ih r (hr r hmem)) hc
      rw [horder.take_eq]
      exact .concat horder
    | choice key hr =>
      obtain ⟨p, hp, inner, later, hinner, m, hm, rfl⟩ := Parser.mem_choice h hn
      obtain ⟨r, hmem, rfl⟩ := List.mem_map.mp hp
      exact .choice hmem (ih r (hr r hmem) _ _ _ hinner m hm)
    | @repetition key bounds rule hr =>
      obtain ⟨children, hc, hmin, hmax, rfl⟩ := Parser.mem_repetition h hn
      rw [← List.map_replicate] at hc
      have horder : DeriveInOrder g (List.replicate children.length rule) input children := by
        refine deriveInOrder_of_combination (fun r hmem => ?_) hc
        obtain rfl := List.eq_of_mem_replicate hmem
        exact ih r hr
      rw [horder.take_eq]
      exact .repetition hmin hmax horder
    | nonterminal k =>
      simp only [parser] at h
      cases hb : g.body? k with
      | none =>
        rw [hb] at h
        cases h
      | some body =>
        rw [hb] at h
        exact .body hb (ih body (hg k body hb) _ _ _ h n hn)

theorem fits_apply (hg : Grammar.Plain g) (hrule : rule.Plain) (fuel : Nat) :
    Parser.Fits (rule.apply g fuel) :=
  fun input found records h n hn =>
    (derives_of_apply hg fuel rule hrule input found records h n hn).length_le

theorem failsIn_of_apply (hg : Grammar.Plain g) : ∀ (fuel : Nat) (rule : Rule), rule.Plain →
    ∀ (input : List UInt8), (rule.apply g fuel input).FailsIn (Undefined g rule)
  | 0, _, _, _ => fun _ _ h => nomatch h
  | fuel + 1, rule, hrule, input => by
    -- What fails in a sub-rule is a failure of the rule.
    have ih : ∀ r : Rule, r.Plain → Part g rule r → ∀ input,
        (r.apply g fuel input).FailsIn (Undefined g rule) := fun r hr hpart input m records h =>
      (failsIn_of_apply hg fuel r hr input m records h).of_part hpart
    rw [apply_succ]
    cases hrule with
    | terminal => exact Trial.failsIn_done _ _
    | range | oneOf => cases input <;> exact Trial.failsIn_done _ _
    | concat key hr =>
      refine Parser.concat_failsIn (fun p hp => ?_) (fun p hp => ?_)
      · obtain ⟨r, hmem, rfl⟩ := List.mem_map.mp hp
        exact fits_apply hg (hr r hmem) fuel
      · obtain ⟨r, hmem, rfl⟩ := List.mem_map.mp hp
        exact ih r (hr r hmem) (.concat hmem (.self r))
    | choice key hr =>
      refine Parser.choice_failsIn fun p hp => ?_
      obtain ⟨r, hmem, rfl⟩ := List.mem_map.mp hp
      exact ih r (hr r hmem) (.choice hmem (.self r)) input
    | repetition key bounds hr =>
      exact Parser.repetition_failsIn (fits_apply hg hr fuel) (ih _ hr (.repetition (.self _)))
    | nonterminal n =>
      simp only [parser]
      cases hb : g.body? n with
      | none =>
        rintro m records ⟨⟩
        exact ⟨n, .self _, hb, rfl⟩
      | some body => exact ih body (hg n body hb) (.body hb (.self body)) input

/-- **Parse trees are derivations.**  Every candidate is a derivation of the rule from the beginning of
the input.  Every node in it has the key of the rule that made it, a part of the rule, of which it is a
derivation from where it begins; it matches a prefix of what is left there, and what its children match
one after another if that rule is made of others.  The only failure is of an undefined nonterminal. -/
theorem candidates_derive (hg : Grammar.Plain g) (hrule : rule.Plain) (fuel : Nat) :
    (∀ input found records, rule.apply g fuel input = .done found records → ∀ n ∈ found.nodes,
      Derives g rule input n ∧
        ∀ m ∈ n.walk.toList, ∃ r, Part g rule r ∧ r.key? = some m.key ∧
          ∃ offset, Derives g r (input.drop offset) m ∧ m.value <+: input.drop offset ∧
            (r.isCompound → m.value = Node.valueList m.children)) ∧
      ∀ input misuse records, rule.apply g fuel input = .failed misuse records →
        Undefined g rule misuse := by
  refine ⟨fun input found records h n hn => ?_, fun input => failsIn_of_apply hg fuel rule hrule input⟩
  have hderives := derives_of_apply hg fuel rule hrule input found records h n hn
  refine ⟨hderives, fun m hm => ?_⟩
  obtain ⟨r, hpart, offset, hm⟩ := hderives.of_mem_walk m hm
  obtain ⟨r', hpart', hm', hkey, hvalue⟩ := hm.producer
  exact ⟨r', hpart.trans hpart', hkey, offset, hm', hm'.value_prefix, hvalue⟩

/-- Nested lists of at least two items; an item that matches nothing stands for those that lack. -/
theorem candidates_derive_of_nested_lists :
    Derives ⟨1, [(0, concat "list" [.terminal "open" [40],
        .repetition "items" (.atLeast 2) (.choice "item" [.nonterminal ⟨0, "list"⟩,
          .optional "x?" (.terminal "x" [120])]), .terminal "close" [41]])]⟩
      (.nonterminal ⟨0, "list"⟩) [40, 120, 40, 41, 41, 120]
      ⟨"list", [40, 120, 40, 41, 41],
        [.leaf "open" [40],
          ⟨"items", [120, 40, 41],
            [⟨"item", [120], [⟨"x?", [120], [.leaf "x" [120]]⟩]⟩,
              ⟨"item", [40, 41], [⟨"list", [40, 41], [.leaf "open" [40],
                ⟨"items", [], [⟨"item", [], [.leaf "x?" []]⟩, ⟨"item", [], [.leaf "x?" []]⟩]⟩,
                .leaf "close" [41]]⟩]⟩]⟩,
          .leaf "close" [41]]⟩ := by
  have hg : Grammar.Plain ⟨1, [(0, concat "list" [.terminal "open" [40],
      .repetition "items" (.atLeast 2) (.choice "item" [.nonterminal ⟨0, "list"⟩,
        .optional "x?" (.terminal "x" [120])]), .terminal "close" [41]])]⟩ := by
    intro n body h
    simp only [Grammar.body?, List.lookup_cons, List.lookup_nil] at h
    split at h <;> cases h
    simp [optional]
  exact ((candidates_derive hg (.nonterminal _) 12).1 _ (.single _) [] (by decide +kernel) _
    (List.mem_singleton_self _)).1

end Rule

end Abnf.Tree
