import Abnf.Proofs.Agreement

/-!
# Abnf.Proofs.Language — the words that a rule generates

`Rule.Generates g rule w rest`: the word `w`, with `rest` of the input behind it, has a derivation from
the rule.  This is the reading of a grammar without priorities: a choice generates what any of its rules
does, an option what its rule does or nothing, and a repetition is any number of derivations one after
another within its bounds, whether they consume or not.  What stands behind the word matters to the end
of the input alone.

* `Rule.ComesTo.generates`: an evaluation that matches is a derivation.
* `Rule.generates_of_matched`: so is an application that matches.
-/

namespace Abnf

variable {α : Type} {input w rest : List α}

/-! ### Words in the input -/

/-- The input goes on at `p` with a word that ends at `q`, and then with the rest. -/
structure WordAt (input : List α) (p q : Nat) (w rest : List α) : Prop where
  drop_eq : input.drop p = w ++ rest
  stop_eq : q = p + w.length

theorem WordAt.nil (p : Nat) : WordAt input p p [] (input.drop p) := ⟨rfl, rfl⟩

theorem WordAt.singleton {a : α} {p : Nat} (ha : input[p]? = some a) :
    WordAt input p (p + 1) [a] (input.drop (p + 1)) := by
  obtain ⟨hlt, rfl⟩ := List.getElem?_eq_some_iff.mp ha
  exact ⟨List.drop_eq_getElem_cons hlt, rfl⟩

theorem WordAt.drop_stop {p q : Nat} (h : WordAt input p q w rest) : input.drop q = rest := by
  rw [h.stop_eq, ← List.drop_drop, h.drop_eq, List.drop_left]

/-- A word and the next one are one word. -/
theorem WordAt.append {p q m : Nat} {v r : List α} (h : WordAt input p m v r)
    (h' : WordAt input m q w rest) : WordAt input p q (v ++ w) rest ∧ r = w ++ rest := by
  have hr : r = w ++ rest := h.drop_stop.symm.trans h'.drop_eq
  refine ⟨⟨?_, ?_⟩, hr⟩
  · rw [h.drop_eq, hr, List.append_assoc]
  · rw [h'.stop_eq, h.stop_eq, List.length_append, Nat.add_assoc]

theorem WordAt.eq_nil {p : Nat} (h : WordAt input p p w rest) : w = [] ∧ rest = input.drop p := by
  have hzero : w.length = 0 := by
    have hstop := h.stop_eq
    omega
  exact ⟨List.eq_nil_of_length_eq_zero hzero, h.drop_stop.symm⟩

namespace Rule

variable [Symbol α]

/-- The word, followed by the rest of the input, has a derivation from the rule. -/
inductive Generates (g : Grammar (Rule α)) : Rule α → List α → List α → Prop
  | symbol {a : α} {rest : List α} : Generates g (.symbol a) [a] rest
  | oneOf {candidates : List α} {a : α} {rest : List α} (h : a ∈ candidates) :
    Generates g (.oneOf candidates) [a] rest
  | range {low high a : α} {rest : List α}
    (h : Symbol.code low ≤ Symbol.code a ∧ Symbol.code a ≤ Symbol.code high) :
    Generates g (.range low high) [a] rest
  | endOfInput : Generates g .endOfInput [] []
  | caseless {expected w rest : List α} (h : w.map Symbol.lower = expected.map Symbol.lower) :
    Generates g (.caseless expected) w rest
  | concatNil {rest : List α} : Generates g (.concat []) [] rest
  | concatCons {first : Rule α} {others : List (Rule α)} {v w rest : List α}
    (hfirst : Generates g first v (w ++ rest)) (hothers : Generates g (.concat others) w rest) :
    Generates g (.concat (first :: others)) (v ++ w) rest
  | choice {rules : List (Rule α)} {r : Rule α} {w rest : List α} (hr : r ∈ rules)
    (h : Generates g r w rest) : Generates g (.choice rules) w rest
  | optional {rule : Rule α} {w rest : List α} (h : Generates g rule w rest) :
    Generates g (.optional rule) w rest
  | optionalElse {rule : Rule α} {rest : List α} : Generates g (.optional rule) [] rest
  | repetition {b : Bounds} {rule : Rule α} {w rest : List α} (count : Nat) (hmin : b.min ≤ count)
    (hmax : ∀ max, b.max = some max → count ≤ max)
    (h : Generates g (.concat (List.replicate count rule)) w rest) :
    Generates g (.repetition b rule) w rest
  | nonterminal {n : Nonterminal} {body : Rule α} {w rest : List α} (hb : g.body? n = some body)
    (h : Generates g body w rest) : Generates g (.nonterminal n) w rest

variable {g : Grammar (Rule α)} {rule : Rule α}

/-! ### Derivations -/

/-- A literal generates its own symbols, and no other word. -/
theorem generates_literal_iff {expected : List α} :
    Generates g (literal expected) w rest ↔ w = expected := by
  induction expected generalizing w with
  | nil =>
    constructor
    · rintro ⟨⟩
      rfl
    · rintro rfl
      exact .concatNil
  | cons a as ih =>
    constructor
    · intro h
      cases h with
      | concatCons hfirst hothers =>
        cases hfirst
        rw [ih.mp hothers]
        rfl
    · rintro rfl
      exact .concatCons .symbol (ih.mpr rfl)

/-- What matches nothing can be derived as often as one likes. -/
theorem generates_replicate (h : Generates g rule [] rest) (count : Nat) :
    Generates g (.concat (List.replicate count rule)) [] rest := by
  induction count with
  | zero => exact .concatNil
  | succ count ih => exact .concatCons h ih

/-- One derivation more, where the bounds for the others are lower by one. -/
theorem generates_round {b : Bounds} {v : List α} (hmax : b.max ≠ some 0)
    (hfirst : Generates g rule v (w ++ rest))
    (hothers : Generates g (.repetition (b.after 1) rule) w rest) :
    Generates g (.repetition b rule) (v ++ w) rest := by
  cases hothers with
  | repetition count hmin hmax' h =>
    refine .repetition (count + 1) (Nat.sub_le_iff_le_add.mp hmin) (fun max hb => ?_)
      (.concatCons hfirst h)
    have hpos : max ≠ 0 := by
      rintro rfl
      exact hmax hb
    have hle : count ≤ max - 1 := hmax' (max - 1) (by simp [Bounds.after, hb])
    omega

/-- Of a rule that matches nothing, the least number of derivations is not above the greatest. -/
theorem generates_emptyRounds {b : Bounds} (hb : b.inOrder) (h : Generates g rule [] rest) :
    Generates g (.repetition b rule) [] rest := by
  refine .repetition b.min le_rfl (fun max hmax => ?_) (generates_replicate h b.min)
  simpa [Bounds.inOrder, hmax] using hb

/-! ### Matches are derivations -/

theorem wordAt_of_caseless {expected : List α} {p : Nat}
    (h : expected.map Symbol.lower <+: (input.drop p).map Symbol.lower) :
    ∃ w rest, WordAt input p (p + expected.length) w rest ∧
      w.map Symbol.lower = expected.map Symbol.lower := by
  have hlength := h.length_le
  simp only [List.length_map] at hlength
  refine ⟨(input.drop p).take expected.length, (input.drop p).drop expected.length, ⟨?_, ?_⟩, ?_⟩
  · exact (List.take_append_drop _ _).symm
  · rw [List.length_take, Nat.min_eq_left hlength]
  · rw [List.map_take, List.prefix_iff_eq_take.mp h, List.length_map]

/-- **An evaluation that matches is a derivation.**  By induction on the evaluation: what is left of a
concatenation or a repetition is one itself, so that each round gives one derivation more. -/
theorem ComesTo.generates {p : Nat} {o : Outcome} (h : ComesTo g input rule p o) :
    ∀ span, o = .matched span → ∃ w rest, WordAt input p span.stop w rest ∧ Generates g rule w rest := by
  induction h with
  | symbol ha =>
    rintro _ ⟨⟩
    exact ⟨_, _, .singleton ha, .symbol⟩
  | oneOf ha hmem =>
    rintro _ ⟨⟩
    exact ⟨_, _, .singleton ha, .oneOf hmem⟩
  | range ha hmem =>
    rintro _ ⟨⟩
    exact ⟨_, _, .singleton ha, .range hmem⟩
  | atEnd =>
    rintro _ ⟨⟩
    refine ⟨[], input.drop input.length, .nil _, ?_⟩
    rw [List.drop_length]
    exact .endOfInput
  | caseless hpre =>
    rintro _ ⟨⟩
    obtain ⟨w, rest, hword, hw⟩ := wordAt_of_caseless hpre
    exact ⟨w, rest, hword, .caseless hw⟩
  | concatNil =>
    rintro _ ⟨⟩
    exact ⟨_, _, .nil _, .concatNil⟩
  | @concatCons _ _ _ m o _ _ ihfirst ihrest =>
    intro span hspan
    cases o <;> cases hspan
    obtain ⟨v, _, hv, hfirst⟩ := ihfirst _ rfl
    obtain ⟨w, rest, hw, hothers⟩ := ihrest _ rfl
    obtain ⟨hword, rfl⟩ := hv.append hw
    exact ⟨_, _, hword, .concatCons hfirst hothers⟩
  | concatElse _ ho => exact fun span hspan => absurd hspan (ho span)
  | choiceFirst _ _ ih =>
    intro span hspan
    obtain ⟨w, rest, hword, h⟩ := ih span hspan
    exact ⟨w, rest, hword, .choice List.mem_cons_self h⟩
  | choiceNext _ _ _ ih =>
    intro span hspan
    obtain ⟨w, rest, hword, h⟩ := ih span hspan
    cases h with
    | choice hr h => exact ⟨w, rest, hword, .choice (List.mem_cons_of_mem _ hr) h⟩
  | optional _ _ ih =>
    intro span hspan
    obtain ⟨w, rest, hword, h⟩ := ih span hspan
    exact ⟨w, rest, hword, .optional h⟩
  | optionalElse =>
    rintro _ ⟨⟩
    exact ⟨_, _, .nil _, .optionalElse⟩
  | @full b _ _ hb hmax =>
    rintro _ ⟨⟩
    have hmin : b.min = 0 := by simpa [Bounds.inOrder, hmax] using hb
    exact ⟨_, _, .nil _, .repetition 0 hmin.le (fun _ _ => Nat.zero_le _) .concatNil⟩
  | @round _ _ _ _ o _ hmax _ _ _ ihrule ihrest =>
    intro span hspan
    cases o <;> cases hspan
    obtain ⟨v, _, hv, hfirst⟩ := ihrule _ rfl
    obtain ⟨w, rest, hw, hothers⟩ := ihrest _ rfl
    obtain ⟨hword, rfl⟩ := hv.append hw
    exact ⟨_, _, hword, generates_round hmax hfirst hothers⟩
  | emptyRound hb _ _ ih =>
    rintro _ ⟨⟩
    obtain ⟨w, rest, hword, h⟩ := ih _ rfl
    obtain ⟨rfl, rfl⟩ := hword.eq_nil
    exact ⟨_, _, hword, generates_emptyRounds hb h⟩
  | enough _ _ _ hmin =>
    rintro _ ⟨⟩
    exact ⟨_, _, .nil _, .repetition 0 hmin.le (fun _ _ => Nat.zero_le _) .concatNil⟩
  | body hb _ ih =>
    intro span hspan
    obtain ⟨w, rest, hword, h⟩ := ih span hspan
    exact ⟨w, rest, hword, .nonterminal hb h⟩
  | symbolElse | oneOfElse | rangeElse | beforeEnd | caselessElse | choiceNil | outOfOrder | tooFew |
    roundFails | undefined =>
    rintro _ ⟨⟩

/-- **A match is a derivation.**  Ordered choice and greed choose among the derivations of a rule and
never invent one: over an input, from whatever scanner, the symbols of a match are a word of the input
that the rule generates before the rest of it. -/
theorem generates_of_matched (hg : g.Plain) (hrule : rule.Plain) {s t : Scanner α} {fuel : Nat}
    {span : Span} (hs : s.Ordered) (hin : s.Reads input)
    (h : rule.apply g fuel s = some (.matched span, t)) :
    span.start = s.position ∧ span.start ≤ span.stop ∧ span.stop ≤ input.length ∧
      Generates g rule (input.extract span.start span.stop) (input.drop span.stop) := by
  have hcomes := comesTo_of_apply hg fuel rule s _ t hrule hs hin h
  have hstart : span.start = s.position := hcomes.start_eq span rfl
  obtain ⟨w, rest, hword, hderives⟩ := hcomes.generates span rfl
  have hlength := congrArg List.length hword.drop_eq
  simp only [List.length_drop, List.length_append] at hlength
  have hle : s.position ≤ input.length := hs.position_le.trans hin.size_le
  have hstop := hword.stop_eq
  refine ⟨hstart, by omega, by omega, ?_⟩
  have hw : input.extract span.start span.stop = w := by
    rw [List.extract_eq_take_drop, hstart, hword.drop_eq, hstop, Nat.add_sub_cancel_left, List.take_left]
  rw [hw, hword.drop_stop]
  exact hderives

/-- Behind one symbol: a choice goes back from its first rule and takes the brackets, and one empty
option stands for the three that are asked for. -/
theorem generates_of_matched_of_brackets_and_options :
    Generates ⟨1, [(0, .choice [.concat [.symbol '(', .nonterminal ⟨0, "nested"⟩, .symbol ')'],
        .concat []])]⟩
      (.concat [.choice [.literal "((x".toList, .nonterminal ⟨0, "nested"⟩],
        .repetition (.exactly 3) (.optional (.symbol 'x')), .endOfInput]) "(())".toList [] := by
  have hg : Grammar.Plain ⟨1, [(0, choice [.concat [.symbol '(', .nonterminal ⟨0, "nested"⟩,
      .symbol ')'], .concat []])]⟩ := by
    intro n body h
    simp only [Grammar.body?, List.lookup_cons, List.lookup_nil] at h
    split at h <;> cases h
    simp
  have hrule : (concat [.choice [.literal "((x".toList, .nonterminal ⟨0, "nested"⟩],
      .repetition (.exactly 3) (.optional (.symbol 'x')), .endOfInput]).Plain := by
    simp
  have hs : Scanner.Ordered (⟨#['-'], .ofList "(())".toList, [1, 0], 1, #[]⟩ : Scanner Char) :=
    ⟨by simp, by simp, by simp⟩
  have hin : Scanner.Reads (⟨#['-'], .ofList "(())".toList, [1, 0], 1, #[]⟩ : Scanner Char)
      "-(())".toList :=
    ⟨"(())".toList, rfl, Source.delivers_ofList _⟩
  obtain ⟨t, ht⟩ : ∃ t, (concat [.choice [.literal "((x".toList, .nonterminal ⟨0, "nested"⟩],
      .repetition (.exactly 3) (.optional (.symbol 'x')), .endOfInput]).apply
        ⟨1, [(0, .choice [.concat [.symbol '(', .nonterminal ⟨0, "nested"⟩, .symbol ')'],
          .concat []])]⟩ 12 ⟨#['-'], .ofList "(())".toList, [1, 0], 1, #[]⟩ =
            some (.matched ⟨1, 5⟩, t) := ⟨_, rfl⟩
  exact (generates_of_matched hg hrule hs hin ht).2.2.2

/-- The converse fails: the choice is over when its first rule has matched. -/
example :
    Generates .empty (.concat [.choice [.symbol 'a', .literal ['a', 'b']], .symbol 'c'])
        ['a', 'b', 'c'] [] ∧
      ((concat [.choice [.symbol 'a', .literal ['a', 'b']], .symbol 'c']).apply .empty 4
        (.ofSource (.ofList ['a', 'b', 'c']))).map Prod.fst = some .noMatch := by
  have hliteral : Generates .empty (literal ['a', 'b']) ['a', 'b'] ['c'] :=
    generates_literal_iff.mpr rfl
  exact ⟨.concatCons (.choice (by simp) hliteral) (.concatCons .symbol .concatNil), rfl⟩

end Rule

end Abnf
