import Abnf.Proofs.Contract
import Mathlib.Data.List.Infix

/-!
# Abnf.Proofs.Peg — rules as parsing expressions

`Rule.ComesTo g input rule p o`: at position `p` of the input, the rule comes to the outcome `o`.
Positions and outcomes are all there is: no scanner, no marks, no fuel.  Choice is ordered, repetition
greedy; a round that matches nothing is the last one and counts for all that are still needed, and
with each other round the bounds go down by one.

* `comesTo_literal_iff`: a literal matches where its symbols follow.
* `ComesTo.start_eq`: a match begins where the rule was applied.
-/

namespace Abnf

variable {α : Type}

/-- The outcome of a rule as part of one that began at `p`. -/
def Outcome.since (p : Nat) : Outcome → Outcome
  | .matched span => .matched ⟨p, span.stop⟩
  | .noMatch => .noMatch
  | .failed misuse => .failed misuse

namespace Outcome

@[simp] theorem since_since (p q : Nat) (o : Outcome) : (o.since p).since q = o.since q := by
  cases o <;> rfl

theorem start_since {p : Nat} {o : Outcome} {span : Span} (h : o.since p = .matched span) :
    span.start = p := by
  cases o <;> cases h
  rfl

end Outcome

namespace Bounds

/-- What is left of the bounds after some rounds. -/
def after (b : Bounds) (count : Nat) : Bounds :=
  ⟨b.min - count, b.max.map fun max => max - count⟩

@[simp] theorem after_zero (b : Bounds) : b.after 0 = b := by
  obtain ⟨min, _ | max⟩ := b <;> simp [after]

theorem after_after (b : Bounds) (m n : Nat) : (b.after m).after n = b.after (m + n) := by
  obtain ⟨min, _ | max⟩ := b <;> simp [after, Nat.sub_sub]

theorem inOrder_after {b : Bounds} (h : b.inOrder) (count : Nat) : (b.after count).inOrder := by
  obtain ⟨min, _ | max⟩ := b
  · rfl
  · have hle : min ≤ max := by simpa [inOrder] using h
    have hsub : min - count ≤ max - count := by omega
    simpa [inOrder, after] using hsub

/-- There may be another round as long as what is left of the greatest number is not nothing. -/
theorem max_after_ne_zero_iff (b : Bounds) (count : Nat) :
    (b.after count).max ≠ some 0 ↔ b.allowMore count = true := by
  obtain ⟨min, _ | max⟩ := b
  · simp [after, allowMore]
  · simp only [after, allowMore, Option.map_some, ne_eq, Option.some.injEq, decide_eq_true_eq]
    omega

theorem max_after_of_not_allowMore {b : Bounds} {count : Nat} (h : b.allowMore count = false) :
    (b.after count).max = some 0 := by
  by_contra hne
  have hmore := (max_after_ne_zero_iff b count).mp hne
  simp [h] at hmore

theorem min_le_of_not_allowMore {b : Bounds} {count : Nat} (hb : b.inOrder)
    (h : b.allowMore count = false) : b.min ≤ count := by
  obtain ⟨min, _ | max⟩ := b
  · cases h
  · have hle : min ≤ max := by simpa [inOrder] using hb
    have hcount : max ≤ count := by simpa [allowMore] using h
    exact hle.trans hcount

end Bounds

namespace Rule

variable [Symbol α]

/-- What a rule without custom scripts comes to at a position of an input. -/
inductive ComesTo (g : Grammar (Rule α)) (input : List α) : Rule α → Nat → Outcome → Prop
  | symbol {a : α} {p : Nat} (ha : input[p]? = some a) :
    ComesTo g input (.symbol a) p (.matched ⟨p, p + 1⟩)
  | symbolElse {a : α} {p : Nat} (ha : input[p]? ≠ some a) : ComesTo g input (.symbol a) p .noMatch
  | oneOf {candidates : List α} {a : α} {p : Nat} (ha : input[p]? = some a) (h : a ∈ candidates) :
    ComesTo g input (.oneOf candidates) p (.matched ⟨p, p + 1⟩)
  | oneOfElse {candidates : List α} {p : Nat} (h : ∀ a ∈ candidates, input[p]? ≠ some a) :
    ComesTo g input (.oneOf candidates) p .noMatch
  | range {low high a : α} {p : Nat} (ha : input[p]? = some a)
    (h : Symbol.code low ≤ Symbol.code a ∧ Symbol.code a ≤ Symbol.code high) :
    ComesTo g input (.range low high) p (.matched ⟨p, p + 1⟩)
  | rangeElse {low high : α} {p : Nat}
    (h : ∀ a, Symbol.code low ≤ Symbol.code a → Symbol.code a ≤ Symbol.code high →
      input[p]? ≠ some a) :
    ComesTo g input (.range low high) p .noMatch
  | atEnd : ComesTo g input .endOfInput input.length (.matched ⟨input.length, input.length⟩)
  | beforeEnd {p : Nat} (h : p ≠ input.length) : ComesTo g input .endOfInput p .noMatch
  | caseless {expected : List α} {p : Nat}
    (h : expected.map Symbol.lower <+: (input.drop p).map Symbol.lower) :
    ComesTo g input (.caseless expected) p (.matched ⟨p, p + expected.length⟩)
  | caselessElse {expected : List α} {p : Nat}
    (h : ¬ expected.map Symbol.lower <+: (input.drop p).map Symbol.lower) :
    ComesTo g input (.caseless expected) p .noMatch
  | concatNil {p : Nat} : ComesTo g input (.concat []) p (.matched ⟨p, p⟩)
  | concatCons {first : Rule α} {rest : List (Rule α)} {p m : Nat} {o : Outcome}
    (hfirst : ComesTo g input first p (.matched ⟨p, m⟩)) (hrest : ComesTo g input (.concat rest) m o) :
    ComesTo g input (.concat (first :: rest)) p (o.since p)
  | concatElse {first : Rule α} {rest : List (Rule α)} {p : Nat} {o : Outcome}
    (hfirst : ComesTo g input first p o) (ho : ∀ span, o ≠ .matched span) :
    ComesTo g input (.concat (first :: rest)) p o
  | choiceNil {p : Nat} : ComesTo g input (.choice []) p .noMatch
  | choiceFirst {first : Rule α} {rest : List (Rule α)} {p : Nat} {o : Outcome}
    (hfirst : ComesTo g input first p o) (ho : o ≠ .noMatch) :
    ComesTo g input (.choice (first :: rest)) p o
  | choiceNext {first : Rule α} {rest : List (Rule α)} {p : Nat} {o : Outcome}
    (hfirst : ComesTo g input first p .noMatch) (hrest : ComesTo g input (.choice rest) p o) :
    ComesTo g input (.choice (first :: rest)) p o
  | optional {rule : Rule α} {p : Nat} {o : Outcome} (hrule : ComesTo g input rule p o)
    (ho : o ≠ .noMatch) : ComesTo g input (.optional rule) p o
  | optionalElse {rule : Rule α} {p : Nat} (hrule : ComesTo g input rule p .noMatch) :
    ComesTo g input (.optional rule) p (.matched ⟨p, p⟩)
  | outOfOrder {b : Bounds} {rule : Rule α} {p : Nat} (hb : b.inOrder = false) :
    ComesTo g input (.repetition b rule) p .noMatch
  | full {b : Bounds} {rule : Rule α} {p : Nat} (hb : b.inOrder) (hmax : b.max = some 0) :
    ComesTo g input (.repetition b rule) p (.matched ⟨p, p⟩)
  | round {b : Bounds} {rule : Rule α} {p m : Nat} {o : Outcome} (hb : b.inOrder)
    (hmax : b.max ≠ some 0) (hrule : ComesTo g input rule p (.matched ⟨p, m⟩)) (hm : m ≠ p)
    (hrest : ComesTo g input (.repetition (b.after 1) rule) m o) :
    ComesTo g input (.repetition b rule) p (o.since p)
  | emptyRound {b : Bounds} {rule : Rule α} {p : Nat} (hb : b.inOrder) (hmax : b.max ≠ some 0)
    (hrule : ComesTo g input rule p (.matched ⟨p, p⟩)) :
    ComesTo g input (.repetition b rule) p (.matched ⟨p, p⟩)
  | enough {b : Bounds} {rule : Rule α} {p : Nat} (hb : b.inOrder) (hmax : b.max ≠ some 0)
    (hrule : ComesTo g input rule p .noMatch) (hmin : b.min = 0) :
    ComesTo g input (.repetition b rule) p (.matched ⟨p, p⟩)
  | tooFew {b : Bounds} {rule : Rule α} {p : Nat} (hb : b.inOrder) (hmax : b.max ≠ some 0)
    (hrule : ComesTo g input rule p .noMatch) (hmin : b.min ≠ 0) :
    ComesTo g input (.repetition b rule) p .noMatch
  | roundFails {b : Bounds} {rule : Rule α} {p : Nat} {misuse : Misuse} (hb : b.inOrder)
    (hmax : b.max ≠ some 0) (hrule : ComesTo g input rule p (.failed misuse)) :
    ComesTo g input (.repetition b rule) p (.failed misuse)
  | body {n : Nonterminal} {body : Rule α} {p : Nat} {o : Outcome} (hb : g.body? n = some body)
    (h : ComesTo g input body p o) : ComesTo g input (.nonterminal n) p o
  | undefined {n : Nonterminal} {p : Nat} (hb : g.body? n = none) :
    ComesTo g input (.nonterminal n) p (.failed (.unresolvedRule n.name))

variable {g : Grammar (Rule α)} {input : List α}

/-! ### Where matches begin -/

theorem ComesTo.start_eq {rule : Rule α} {p : Nat} {o : Outcome} (h : ComesTo g input rule p o) :
    ∀ span, o = .matched span → span.start = p := by
  induction h with
  | symbol | oneOf | range | atEnd | caseless | concatNil | optionalElse | full | emptyRound | enough =>
    rintro span ⟨⟩
    rfl
  | symbolElse | oneOfElse | rangeElse | beforeEnd | caselessElse | choiceNil | outOfOrder | tooFew |
    roundFails | undefined =>
    rintro span ⟨⟩
  | concatCons | round => exact fun span hspan => Outcome.start_since hspan
  | concatElse _ ho => exact fun span hspan => absurd hspan (ho span)
  | choiceFirst _ _ ih => exact ih
  | choiceNext _ _ _ ih => exact ih
  | optional _ _ ih => exact ih
  | body _ _ ih => exact ih

theorem ComesTo.since_self {rule : Rule α} {p : Nat} {o : Outcome}
    (h : ComesTo g input rule p o) : o.since p = o := by
  cases o with
  | matched span =>
    obtain rfl := h.start_eq span rfl
    rfl
  | noMatch => rfl
  | failed misuse => rfl

/-! ### One outcome -/

/-- As long as rounds are allowed, the next one decides what the repetition comes to. -/
theorem ComesTo.of_round {b : Bounds} {rule : Rule α} {p : Nat} {o : Outcome}
    (h : ComesTo g input (.repetition b rule) p o) (hb : b.inOrder) (hmax : b.max ≠ some 0) :
    ∃ o₁, ComesTo g input rule p o₁ ∧
      match o₁ with
      | .matched span => (span.stop = p ∧ o = .matched ⟨p, p⟩) ∨
          (span.stop ≠ p ∧ ∃ o', ComesTo g input (.repetition (b.after 1) rule) span.stop o' ∧
            o = o'.since p)
      | .noMatch => (b.min = 0 ∧ o = .matched ⟨p, p⟩) ∨ (b.min ≠ 0 ∧ o = .noMatch)
      | .failed misuse => o = .failed misuse := by
  cases h with
  | outOfOrder hb' => simp [hb] at hb'
  | full _ hmax' => exact absurd hmax' hmax
  | round _ _ hrule hm hrest => exact ⟨_, hrule, .inr ⟨hm, _, hrest, rfl⟩⟩
  | emptyRound _ _ hrule => exact ⟨_, hrule, .inl ⟨rfl, rfl⟩⟩
  | enough _ _ hrule hmin => exact ⟨_, hrule, .inl ⟨hmin, rfl⟩⟩
  | tooFew _ _ hrule hmin => exact ⟨_, hrule, .inr ⟨hmin, rfl⟩⟩
  | roundFails _ _ hrule => exact ⟨_, hrule, rfl⟩

/-- Where no more rounds are allowed, a repetition is over. -/
theorem ComesTo.of_full {b : Bounds} {rule : Rule α} {p : Nat} {o : Outcome}
    (h : ComesTo g input (.repetition b rule) p o) (hb : b.inOrder) (hmax : b.max = some 0) :
    o = .matched ⟨p, p⟩ := by
  cases h with
  | outOfOrder hb' => simp [hb] at hb'
  | full => rfl
  | round _ hmax' | emptyRound _ hmax' | enough _ hmax' | tooFew _ hmax' | roundFails _ hmax' =>
    exact absurd hmax hmax'

/-- A rule comes to one outcome at most. -/
theorem ComesTo.unique {rule : Rule α} {p : Nat} {o o' : Outcome} (h : ComesTo g input rule p o)
    (h' : ComesTo g input rule p o') : o = o' := by
  induction h generalizing o' with
  | symbol ha =>
    cases h' with
    | symbol => rfl
    | symbolElse hno => exact absurd ha hno
  | symbolElse hno =>
    cases h' with
    | symbol ha => exact absurd ha hno
    | symbolElse => rfl
  | oneOf ha hmem =>
    cases h' with
    | oneOf => rfl
    | oneOfElse hno => exact absurd ha (hno _ hmem)
  | oneOfElse hno =>
    cases h' with
    | oneOf ha hmem => exact absurd ha (hno _ hmem)
    | oneOfElse => rfl
  | range ha hmem =>
    cases h' with
    | range => rfl
    | rangeElse hno => exact absurd ha (hno _ hmem.1 hmem.2)
  | rangeElse hno =>
    cases h' with
    | range ha hmem => exact absurd ha (hno _ hmem.1 hmem.2)
    | rangeElse => rfl
  | atEnd =>
    cases h' with
    | atEnd => rfl
    | beforeEnd hne => exact absurd rfl hne
  | beforeEnd hne =>
    cases h' with
    | atEnd => exact absurd rfl hne
    | beforeEnd => rfl
  | caseless hpre =>
    cases h' with
    | caseless => rfl
    | caselessElse hno => exact absurd hpre hno
  | caselessElse hno =>
    cases h' with
    | caseless hpre => exact absurd hpre hno
    | caselessElse => rfl
  | concatNil =>
    cases h'
    rfl
  | concatCons _ _ ihfirst ihrest =>
    cases h' with
    | concatCons hfirst hrest =>
      cases ihfirst hfirst
      rw [ihrest hrest]
    | concatElse hfirst ho => exact absurd (ihfirst hfirst).symm (ho _)
  | concatElse _ ho ihfirst =>
    cases h' with
    | concatCons hfirst _ => exact absurd (ihfirst hfirst) (ho _)
    | concatElse hfirst _ => exact ihfirst hfirst
  | choiceNil =>
    cases h'
    rfl
  | choiceFirst _ ho ihfirst =>
    cases h' with
    | choiceFirst hfirst _ => exact ihfirst hfirst
    | choiceNext hfirst _ => exact absurd (ihfirst hfirst) ho
  | choiceNext _ _ ihfirst ihrest =>
    cases h' with
    | choiceFirst hfirst ho => exact absurd (ihfirst hfirst).symm ho
    | choiceNext _ hrest => exact ihrest hrest
  | optional _ ho ih =>
    cases h' with
    | optional hrule _ => exact ih hrule
    | optionalElse hrule => exact absurd (ih hrule) ho
  | optionalElse _ ih =>
    cases h' with
    | optional hrule ho => exact absurd (ih hrule).symm ho
    | optionalElse => rfl
  | outOfOrder hb =>
    cases h' with
    | outOfOrder => rfl
    | full hb' | round hb' | emptyRound hb' | enough hb' | tooFew hb' | roundFails hb' =>
      simp [hb] at hb'
  | full hb hmax => exact (h'.of_full hb hmax).symm
  | round hb hmax _ hm _ ihrule ihrest =>
    obtain ⟨o₁, hrule, hround⟩ := h'.of_round hb hmax
    obtain rfl := ihrule hrule
    rcases hround with ⟨hp, -⟩ | ⟨-, o', hrest, rfl⟩
    · exact absurd hp hm
    · rw [ihrest hrest]
  | emptyRound hb hmax _ ihrule =>
    obtain ⟨o₁, hrule, hround⟩ := h'.of_round hb hmax
    obtain rfl := ihrule hrule
    rcases hround with ⟨-, rfl⟩ | ⟨hp, -⟩
    · rfl
    · exact absurd rfl hp
  | enough hb hmax _ hmin ihrule =>
    obtain ⟨o₁, hrule, hround⟩ := h'.of_round hb hmax
    obtain rfl := ihrule hrule
    rcases hround with ⟨-, rfl⟩ | ⟨hmin', -⟩
    · rfl
    · exact absurd hmin hmin'
  | tooFew hb hmax _ hmin ihrule =>
    obtain ⟨o₁, hrule, hround⟩ := h'.of_round hb hmax
    obtain rfl := ihrule hrule
    rcases hround with ⟨hmin', -⟩ | ⟨-, rfl⟩
    · exact absurd hmin' hmin
    · rfl
  | roundFails hb hmax _ ihrule =>
    obtain ⟨o₁, hrule, hround⟩ := h'.of_round hb hmax
    obtain rfl := ihrule hrule
    exact hround.symm
  | body hb _ ih =>
    cases h' with
    | body hb' h =>
      cases hb.symm.trans hb'
      exact ih h
    | undefined hb' => cases hb.symm.trans hb'
  | undefined hb =>
    cases h' with
    | body hb' => cases hb.symm.trans hb'
    | undefined => rfl

/-! ### Literals -/

omit [Symbol α] in
theorem cons_prefix_drop_iff {a : α} {as : List α} {p : Nat} :
    a :: as <+: input.drop p ↔ input[p]? = some a ∧ as <+: input.drop (p + 1) := by
  by_cases hp : p < input.length
  · rw [List.drop_eq_getElem_cons hp, List.cons_prefix_cons, List.getElem?_eq_getElem hp]
    simp [eq_comm]
  · have hle : input.length ≤ p := by omega
    simp [List.drop_eq_nil_of_le hle, hle]

/-- A literal matches where its symbols follow, and nowhere else. -/
theorem comesTo_literal_iff {expected : List α} {p : Nat} {o : Outcome} :
    ComesTo g input (literal expected) p o ↔
      (expected <+: input.drop p ∧ o = .matched ⟨p, p + expected.length⟩) ∨
        (¬ expected <+: input.drop p ∧ o = .noMatch) := by
  induction expected generalizing p o with
  | nil =>
    constructor
    · intro h
      cases h
      exact .inl ⟨List.nil_prefix, rfl⟩
    · rintro (⟨-, rfl⟩ | ⟨h, -⟩)
      · exact .concatNil
      · exact absurd List.nil_prefix h
  | cons a as ih =>
    have hlength : p + (a :: as).length = p + 1 + as.length := by
      rw [List.length_cons]
      omega
    rw [cons_prefix_drop_iff, hlength]
    constructor
    · intro h
      cases h with
      | concatCons hfirst hrest =>
        cases hfirst with
        | symbol ha =>
          rcases ih.mp hrest with ⟨has, rfl⟩ | ⟨has, rfl⟩
          · exact .inl ⟨⟨ha, has⟩, rfl⟩
          · exact .inr ⟨fun h => has h.2, rfl⟩
      | concatElse hfirst ho =>
        cases hfirst with
        | symbol ha => exact absurd rfl (ho _)
        | symbolElse ha => exact .inr ⟨fun h => ha h.1, rfl⟩
    · rintro (⟨⟨ha, has⟩, rfl⟩ | ⟨h, rfl⟩)
      · exact .concatCons (.symbol ha) (ih.mpr (.inl ⟨has, rfl⟩))
      · by_cases ha : input[p]? = some a
        · exact .concatCons (.symbol ha) (ih.mpr (.inr ⟨fun has => h ⟨ha, has⟩, rfl⟩))
        · exact .concatElse (.symbolElse ha) (by simp)

end Rule

end Abnf
