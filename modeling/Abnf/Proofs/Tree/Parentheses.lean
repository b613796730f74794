import Abnf.Proofs.Adequacy
import Abnf.Proofs.Definition
import Abnf.Proofs.Tree.Parts
import Abnf.Tree.Fuel

/-!
# Abnf.Proofs.Tree.Parentheses — parentheses in parentheses, recognised in both ways

The rule stands for a pair of parentheses around itself, or for nothing.  Where not all of the
parentheses are closed, those within may be; then the rule matches further on, and what is around it
falls back to nothing.  So the lengths of the matches at all places have to be known together
(`nestedLength`), and there is one step from each place to the one before it (`nestedLength_cons`).
For parse trees there is besides the longest match one that matches nothing.  It is never the one to go
on with: where the longest is not empty another parenthesis opens, and none can close.

* `Rule.comesTo_parentheses`: what the rule comes to at each position of an input.
* `Tree.Rule.apply_parentheses`: the candidates for each rest of an input.
* `parentheses_alike`: both, for texts and for bytes, in any grammar that has the rule.
-/

namespace Abnf

variable {α β : Type}

/-! ### Counting parentheses -/

section Counting

variable [DecidableEq α] {a b opening closing : α} {input rest : List α} {k : Nat}

/-- How many copies of a symbol an input begins with. -/
def leading (a : α) (input : List α) : Nat := (input.takeWhile (· = a)).length

/-- How many symbols at the beginning are parentheses in parentheses: the opening ones and as many
closing ones, or none if there are fewer of these. -/
def nestedLength (opening closing : α) (input : List α) : Nat :=
  if leading opening input ≤ leading closing (input.drop (leading opening input)) then
    2 * leading opening input
  else 0

@[simp] theorem leading_nil : leading a [] = 0 := rfl

@[simp] theorem leading_cons_self : leading a (a :: rest) = leading a rest + 1 := by
  simp [leading]

theorem leading_cons_of_ne (h : b ≠ a) : leading a (b :: rest) = 0 := by
  simp [leading, h]

theorem leading_le_length : leading a input ≤ input.length :=
  (List.takeWhile_sublist _).length_le

/-- Behind the leading copies there is no other copy. -/
theorem lt_leading_iff (hk : k ≤ leading a input) : k < leading a input ↔ input[k]? = some a := by
  induction input generalizing k with
  | nil => simp
  | cons b rest ih =>
    by_cases hb : b = a
    · subst hb
      rw [leading_cons_self] at hk ⊢
      cases k with
      | zero => simp
      | succ k => rw [Nat.succ_lt_succ_iff, List.getElem?_cons_succ, ih (by omega)]
    · rw [leading_cons_of_ne hb] at hk ⊢
      obtain rfl : k = 0 := by omega
      simp [hb]

theorem nestedLength_of_head?_ne (h : input.head? ≠ some opening) :
    nestedLength opening closing input = 0 := by
  have hnone : leading opening input = 0 := by
    cases input with
    | nil => rfl
    | cons b rest => exact leading_cons_of_ne fun hb => h (by rw [hb]; rfl)
  simp [nestedLength, hnone]

theorem nestedLength_le_length : nestedLength opening closing input ≤ input.length := by
  have hopening : leading opening input ≤ input.length := leading_le_length
  have hclosing : leading closing (input.drop (leading opening input)) ≤
      (input.drop (leading opening input)).length := leading_le_length
  rw [List.length_drop] at hclosing
  unfold nestedLength
  split <;> omega

/-- With an opening parenthesis in front, there must be another closing one behind. -/
theorem nestedLength_cons (hne : opening ≠ closing) :
    nestedLength opening closing (opening :: rest) =
      if rest[nestedLength opening closing rest]? = some closing then
        nestedLength opening closing rest + 2
      else 0 := by
  have hnext (k : Nat) : rest[leading opening rest + k]? = (rest.drop (leading opening rest))[k]? := by
    rw [List.getElem?_drop]
  rw [nestedLength, leading_cons_self, List.drop_succ_cons]
  by_cases hclosed : leading opening rest ≤ leading closing (rest.drop (leading opening rest))
  · have hlength : nestedLength opening closing rest = leading opening rest + leading opening rest := by
      rw [nestedLength, if_pos hclosed, Nat.two_mul]
    rw [hlength, hnext, ← if_congr (lt_leading_iff hclosed) rfl rfl]
    split <;> split <;> omega
  · -- Some are not closed, so the rest begins with an opening parenthesis.
    have hlength : nestedLength opening closing rest = 0 := if_neg hclosed
    have hfirst : rest[0]? = some opening := (lt_leading_iff (Nat.zero_le _)).mp (by omega)
    rw [hlength, hfirst, if_neg (by omega), if_neg (by simpa using hne)]

end Counting

/-! ### Over a scanner -/

namespace Grammar

variable {ρ : Type} {n m : Nonterminal} {body body' : ρ}

/-- The grammar in which only one nonterminal has a body. -/
def only (n : Nonterminal) (body : ρ) : Grammar ρ := ⟨n.id + 1, [(n.id, body)]⟩

theorem body?_only_iff : (only n body).body? m = some body' ↔ m.id = n.id ∧ body' = body := by
  by_cases hm : m.id = n.id
  · simp [only, body?, hm, eq_comm]
  · have hb : (m.id == n.id) = false := by simpa using hm
    simp [only, body?, List.lookup_cons, hm, hb]

theorem keptIn_of_only {g : Grammar ρ} (h : g.body? n = some body) : (only n body).KeptIn g := by
  intro m body' hm
  obtain ⟨hid, rfl⟩ := body?_only_iff.mp hm
  rw [body?, hid]
  exact h

end Grammar

namespace Rule

/-- A pair of parentheses around a nonterminal, or nothing. -/
def parentheses (opening closing : α) (n : Nonterminal) : Rule α :=
  .choice [.concat [.symbol opening, .nonterminal n, .symbol closing], .concat []]

variable [Symbol α] {opening closing : α} {g : Grammar (Rule α)} {n : Nonterminal} {input rest : List α}
  {p q : Nat}

theorem comesTo_pair (hopening : input[p]? = some opening)
    (hinner : (nonterminal n).ComesTo g input (p + 1) (.matched ⟨p + 1, q⟩))
    (hclosing : input[q]? = some closing) :
    (concat [.symbol opening, .nonterminal n, .symbol closing]).ComesTo g input p
      (.matched ⟨p, q + 1⟩) :=
  .concatCons (.symbol hopening) (.concatCons hinner (.concatCons (.symbol hclosing) .concatNil))

theorem comesTo_pair_of_not_closed (hopening : input[p]? = some opening)
    (hinner : (nonterminal n).ComesTo g input (p + 1) (.matched ⟨p + 1, q⟩))
    (hclosing : input[q]? ≠ some closing) :
    (concat [.symbol opening, .nonterminal n, .symbol closing]).ComesTo g input p .noMatch :=
  .concatCons (.symbol hopening) (.concatCons hinner (.concatElse (.symbolElse hclosing) nofun))

/-- Where there is no pair, nothing is matched. -/
theorem comesTo_parentheses_of_noMatch (hn : g.body? n = some (parentheses opening closing n))
    (h : (concat [.symbol opening, .nonterminal n, .symbol closing]).ComesTo g input p .noMatch) :
    (nonterminal n).ComesTo g input p (.matched ⟨p, p⟩) :=
  .body hn (.choiceNext h (.choiceFirst .concatNil nofun))

/-- At every position the rule matches as many symbols as are parentheses in parentheses there. -/
theorem comesTo_parentheses [DecidableEq α] (hne : opening ≠ closing)
    (hn : g.body? n = some (parentheses opening closing n)) (hrest : input.drop p = rest) :
    (nonterminal n).ComesTo g input p (.matched ⟨p, p + nestedLength opening closing rest⟩) := by
  -- On what stands behind the position, which is shorter where the rule is applied within.
  induction rest generalizing p with
  | nil =>
    have hend : input[p]? = none := by rw [← List.head?_drop, hrest]; rfl
    exact comesTo_parentheses_of_noMatch hn (.concatElse (.symbolElse (by simp [hend])) nofun)
  | cons b rest ih =>
    have hfirst : input[p]? = some b := by rw [← List.head?_drop, hrest]; rfl
    by_cases hb : b = opening
    · subst hb
      have hdrop : input.drop (p + 1) = rest := by rw [← List.tail_drop, hrest]; rfl
      have hinner := ih hdrop
      have hnext : input[p + 1 + nestedLength b closing rest]? =
          rest[nestedLength b closing rest]? := by
        rw [← hdrop, List.getElem?_drop]
      rw [nestedLength_cons hne]
      split
      · rename_i hclosing
        have hpair := comesTo_pair hfirst hinner (hnext.trans hclosing)
        have hstop : p + 1 + nestedLength b closing rest + 1 =
            p + (nestedLength b closing rest + 2) := by omega
        rw [hstop] at hpair
        exact .body hn (.choiceFirst hpair nofun)
      · rename_i hclosing
        exact comesTo_parentheses_of_noMatch hn
          (comesTo_pair_of_not_closed hfirst hinner (by rwa [hnext]))
    · rw [nestedLength_of_head?_ne (by simpa using hb)]
      exact comesTo_parentheses_of_noMatch hn
        (.concatElse (.symbolElse (by simpa [hfirst] using hb)) nofun)

/-- A match is found in every grammar that keeps the bodies of a plain one in which the rule comes to
it. -/
theorem apply_of_comesTo_keptIn {g₀ : Grammar (Rule α)} (hg₀ : g₀.Plain) (hkept : g₀.KeptIn g)
    {rule : Rule α} (hrule : rule.Plain) {span : Span}
    (h : rule.ComesTo g₀ input p (.matched span)) {s : Scanner α} (hs : s.At input p) :
    ∃ enough t, ∀ fuel ≥ enough, rule.apply g fuel s = some (.matched span, t) := by
  obtain ⟨enough, t, happly⟩ := apply_of_comesTo hg₀ hrule h hs
  refine ⟨enough, t, fun fuel hfuel => apply_mono g hfuel rule s _ ?_⟩
  exact apply_of_keptIn hkept (plainIn_of_plain hg₀ hrule) happly

/-- The application ends with what is nested at the beginning, whatever else the grammar has. -/
theorem apply_parentheses [DecidableEq α] (hne : opening ≠ closing)
    (hn : g.body? n = some (parentheses opening closing n)) {source : Source α}
    (hsource : source.Delivers input) :
    ∃ enough t, ∀ fuel ≥ enough, (nonterminal n).apply g fuel (.ofSource source) =
      some (.matched ⟨0, nestedLength opening closing input⟩, t) := by
  have hplain : (Grammar.only n (parentheses opening closing n)).Plain := by
    intro m body hm
    obtain ⟨-, rfl⟩ := Grammar.body?_only_iff.mp hm
    simp [parentheses]
  have hcomes : (nonterminal n).ComesTo (.only n (parentheses opening closing n)) input 0
      (.matched ⟨0, 0 + nestedLength opening closing input⟩) :=
    comesTo_parentheses hne (Grammar.body?_only_iff.mpr ⟨rfl, rfl⟩) rfl
  rw [Nat.zero_add] at hcomes
  exact apply_of_comesTo_keptIn hplain (Grammar.keptIn_of_only hn) (.nonterminal n) hcomes
    ⟨Scanner.Ordered.ofSource source, Scanner.reads_ofSource hsource, rfl⟩

end Rule

/-! ### Among parse trees -/

namespace Tree

namespace Parser

variable {key : String} {b : UInt8} {input rest : List UInt8} {parsers others : List Parser}
  {p : Parser} {best : Node} {more c : List Node} {tails : List (List Node)} {records : List Record}

theorem combinations_terminal (h : combinations others rest = .done tails records) :
    combinations (terminal key [b] :: others) (b :: rest) =
      .done (tails.map (.leaf key [b] :: ·)) records := by
  simp [combinations, terminal, Candidates.single, branch, Node.leaf, Node.length, h, Trial.after]

theorem combinations_terminal_of_head?_ne (h : input.head? ≠ some b) :
    combinations (terminal key [b] :: others) input = .done [] [] := by
  have hprefix : ¬ [b] <+: input := by
    rintro ⟨rest, rfl⟩
    exact h rfl
  simp [combinations, terminal, hprefix, Candidates.empty, branch]

theorem combinations_closing (key : String) (b : UInt8) (rest : List UInt8) (k : Nat) :
    combinations [terminal key [b]] (rest.drop k) =
      .done (if rest[k]? = some b then [[.leaf key [b]]] else []) [] := by
  split
  · rename_i hb
    obtain ⟨hk, rfl⟩ := List.getElem?_eq_some_iff.mp hb
    have hend : combinations [] (rest.drop (k + 1)) = .done [[]] [] := rfl
    rw [List.drop_eq_getElem_cons hk]
    exact combinations_terminal hend
  · rename_i hb
    exact combinations_terminal_of_head?_ne (by rwa [List.head?_drop])

/-- Candidates behind which there is nothing to go on with might as well not be there. -/
theorem branch_of_forall {next : Node → Trial (List (List Node))} {nodes : List Node}
    (h : ∀ n ∈ nodes, next n = .done [] []) : branch next nodes = .done [] [] := by
  induction nodes with
  | nil => rfl
  | cons n rest ih =>
    simp [branch, h n List.mem_cons_self, ih fun m hm => h m (List.mem_cons_of_mem _ hm)]

/-- If only the first candidate can be followed by the byte, it is the only one that counts. -/
theorem combinations_inner (hp : p rest = .done ⟨best :: more⟩ []) (hbest : best.length ≤ rest.length)
    (hmore : ∀ n ∈ more, n.length ≤ rest.length ∧ rest[n.length]? ≠ some b) :
    combinations [p, terminal key [b]] rest =
      .done (if rest[best.length]? = some b then [[best, .leaf key [b]]] else []) [] := by
  rw [combinations, hp, Trial.done_bind, Trial.after_nil, branch, if_pos hbest,
    combinations_closing, branch_of_forall]
  · rw [Trial.done_bind]
    split <;> rfl
  · intro n hn
    obtain ⟨hfits, hopen⟩ := hmore n hn
    rw [if_pos hfits, combinations_closing, if_neg hopen]

theorem concat_of_no_combination (h : combinations parsers input = .done [] []) (key : String) :
    concat key parsers input = .done .empty [] := by
  have hagree := concat_agree key parsers input
  rw [h] at hagree
  obtain ⟨answer, hanswer, ⟨-, rfl⟩ | ⟨c, hc, -⟩⟩ := hagree.of_done
  · exact hanswer
  · cases hc

theorem concat_of_one_combination (h : combinations parsers input = .done [c] []) (key : String) :
    ∃ n, n.length = Node.lengthList c ∧ concat key parsers input = .done (.single n) [] := by
  have hagree := concat_agree key parsers input
  rw [h] at hagree
  obtain ⟨answer, hanswer, ⟨hnil, -⟩ | ⟨d, hd, hle, rfl⟩⟩ := hagree.of_done
  · cases hnil
  · obtain rfl := List.mem_singleton.mp hd.mem
    exact ⟨_, Node.length_of_take hle, hanswer⟩

end Parser

namespace Rule

/-- What parentheses and their parts are recorded under. -/
structure ParenthesesKeys where
  choice : String
  pair : String
  opening : String
  closing : String
  nothing : String

/-- A pair of parentheses around a nonterminal, or nothing. -/
def parentheses (keys : ParenthesesKeys) (opening closing : UInt8) (n : Nonterminal) : Rule :=
  .choice keys.choice [
    .concat keys.pair [.terminal keys.opening [opening], .nonterminal n,
      .terminal keys.closing [closing]],
    .concat keys.nothing []]

/-- What is found where so many symbols are nested: a match of them, and an empty one, which is the only
one if they are none. -/
inductive Nested (length : Nat) : List Node → Prop
  | pair {n e : Node} (hn : n.length = length) (hne : length ≠ 0) (he : e.length = 0) :
    Nested length [n, e]
  | nothing {e : Node} (hlength : length = 0) (he : e.length = 0) : Nested length [e]

variable {g : Grammar Rule} {keys : ParenthesesKeys} {opening closing : UInt8} {n : Nonterminal}
  {input rest : List UInt8} {nodes : List Node} {fuel k : Nat}

/-- Where there is an empty match besides, another parenthesis opens, and none can close. -/
theorem Nested.exists_cons (h : Nested (nestedLength opening closing rest) nodes)
    (hne : opening ≠ closing) : ∃ best more, nodes = best :: more ∧
      best.length = nestedLength opening closing rest ∧
      ∀ m ∈ more, m.length ≤ rest.length ∧ rest[m.length]? ≠ some closing := by
  cases h with
  | @pair best e hbest hlength he =>
    have hfirst : rest.head? = some opening :=
      Decidable.by_contra fun hno => hlength (nestedLength_of_head?_ne hno)
    refine ⟨best, [e], rfl, hbest, fun m hm => ?_⟩
    obtain rfl := List.mem_singleton.mp hm
    rw [he, ← List.head?_eq_getElem?, hfirst]
    exact ⟨Nat.zero_le _, by simpa using hne⟩
  | @nothing e hlength he => exact ⟨e, [], rfl, he.trans hlength.symm, nofun⟩

/-- The parts of a pair, over any parser for what is within. -/
def pairParts (keys : ParenthesesKeys) (opening closing : UInt8) (within : Parser) : List Parser :=
  [.terminal keys.opening [opening], within, .terminal keys.closing [closing]]

/-- What is found for the pair is kept, and the empty match behind it. -/
theorem apply_of_pair (hn : g.body? n = some (parentheses keys opening closing n))
    (hpair : Parser.concat keys.pair
      (pairParts keys opening closing ((nonterminal n).apply g (fuel + 1))) input = .done ⟨nodes⟩ []) :
    (nonterminal n).apply g (fuel + 4) input =
      .done ⟨nodes.map (Parser.wrap keys.choice) ++
        [Parser.wrap keys.choice (.leaf keys.nothing [])]⟩ [] := by
  have hunfold : (nonterminal n).apply g (fuel + 4) input =
      Parser.choice keys.choice [
        Parser.concat keys.pair
          (pairParts keys opening closing ((nonterminal n).apply g (fuel + 1))),
        Parser.concat keys.nothing []] input := by
    rw [apply_succ]
    simp only [parser, hn]
    rfl
  rw [hunfold, Parser.choice, hpair]
  rfl

theorem apply_of_no_pair (hn : g.body? n = some (parentheses keys opening closing n))
    (hlength : nestedLength opening closing input = 0)
    (hpair : Parser.combinations (pairParts keys opening closing ((nonterminal n).apply g (fuel + 1)))
      input = .done [] []) :
    ∃ found, (nonterminal n).apply g (fuel + 4) input = .done found [] ∧
      Nested (nestedLength opening closing input) found.nodes :=
  ⟨_, apply_of_pair hn (Parser.concat_of_no_combination hpair _), .nothing hlength rfl⟩

/-- Three steps down for each byte, what is nested at the beginning of an input is found, and nothing. -/
theorem apply_parentheses (hne : opening ≠ closing)
    (hn : g.body? n = some (parentheses keys opening closing n)) (input : List UInt8) :
    ∃ found, (nonterminal n).apply g (3 * input.length + 4) input = .done found [] ∧
      Nested (nestedLength opening closing input) found.nodes := by
  induction input with
  | nil => exact apply_of_no_pair hn rfl (Parser.combinations_terminal_of_head?_ne nofun)
  | cons b rest ih =>
    by_cases hb : b = opening
    · subst hb
      obtain ⟨⟨nodes⟩, hwithin, hnested⟩ := ih
      obtain ⟨best, more, rfl, hbest, hmore⟩ := hnested.exists_cons hne
      have hfits : best.length ≤ rest.length := hbest ▸ nestedLength_le_length
      have hpair : Parser.combinations
          (pairParts keys b closing ((nonterminal n).apply g (3 * rest.length + 4))) (b :: rest) = _ :=
        Parser.combinations_terminal (Parser.combinations_inner hwithin hfits hmore)
      have hlength : nestedLength b closing (b :: rest) = _ := nestedLength_cons hne
      rw [hbest] at hpair
      split at hlength
      · rename_i hclosed
        rw [if_pos hclosed] at hpair
        obtain ⟨m, hm, hconcat⟩ := Parser.concat_of_one_combination hpair keys.pair
        have hwrap : (Parser.wrap keys.choice m).length = nestedLength b closing rest + 2 := by
          refine hm.trans ?_
          simp only [Node.lengthList, Node.length, Node.leaf, List.length_singleton] at hbest ⊢
          omega
        exact ⟨_, apply_of_pair hn hconcat, .pair (hwrap.trans hlength.symm) (by omega) rfl⟩
      · rename_i hopen
        rw [if_neg hopen] at hpair
        exact apply_of_no_pair hn hlength hpair
    · have hhead : (b :: rest).head? ≠ some opening := by simpa using hb
      exact apply_of_no_pair hn (nestedLength_of_head?_ne hhead)
        (Parser.combinations_terminal_of_head?_ne hhead)

theorem Nested.best (h : Nested k nodes) :
    ∃ best, (Candidates.mk nodes).best? = some best ∧ best.length = k := by
  cases h with
  | @pair n e hn hk he =>
    refine ⟨n, ?_, hn⟩
    simp [Candidates.best?, Candidates.firstLongest, he]
  | @nothing e hk he => exact ⟨e, rfl, he.trans hk.symm⟩

theorem Nested.size (h : Nested k nodes) :
    (Candidates.mk nodes).size = if k = 0 then 1 else 2 := by
  cases h with
  | pair _ hk => rw [if_neg hk]; rfl
  | nothing hk => rw [if_pos hk]; rfl

end Rule

end Tree

/-! ### Texts as bytes -/

section Encoding

variable {encode : α → List β} {a : α} {b : β}

/-- A symbol is written as one other symbol, and no other symbol as something that begins with it. -/
structure StandsFor (encode : α → List β) (a : α) (b : β) : Prop where
  alone : encode a = [b]
  others : ∀ c ≠ a, ∃ first more, encode c = first :: more ∧ first ≠ b

/-- An ASCII character is written as its code; all others begin with another byte. -/
theorem standsFor_ascii {c : Char} (hc : c.toNat ≤ 127) :
    StandsFor String.utf8EncodeChar c (UInt8.ofNat c.toNat) where
  alone := if_pos hc
  others d hd := by
    have hmore {k : Nat} (hk : 128 ≤ k) (hk' : k ≤ 255) : UInt8.ofNat k ≠ UInt8.ofNat c.toNat := by
      rw [ne_eq, ← UInt8.toNat_inj, UInt8.toNat_ofNat', UInt8.toNat_ofNat']
      omega
    rw [String.utf8EncodeChar.eq_1]
    split
    · rename_i hd'
      refine ⟨_, _, rfl, fun heq => hd (Char.toNat_inj.mp ?_)⟩
      rw [← UInt8.toNat_inj, UInt8.toNat_ofNat', UInt8.toNat_ofNat'] at heq
      change d.val.toNat = c.toNat
      omega
    · split
      · exact ⟨_, _, rfl, hmore (by omega) (by omega)⟩
      · split
        · exact ⟨_, _, rfl, hmore (by omega) (by omega)⟩
        · exact ⟨_, _, rfl, hmore (by omega) (by omega)⟩

variable [DecidableEq α] [DecidableEq β] {opening closing : α} {opening' closing' : β}

theorem leading_flatMap (h : StandsFor encode a b) (text : List α) :
    leading b (text.flatMap encode) = leading a text := by
  induction text with
  | nil => rfl
  | cons c rest ih =>
    by_cases hc : c = a
    · subst hc
      rw [List.flatMap_cons, h.alone, List.singleton_append, leading_cons_self, leading_cons_self, ih]
    · obtain ⟨first, more, hfirst, hne⟩ := h.others c hc
      rw [List.flatMap_cons, hfirst, List.cons_append, leading_cons_of_ne hne, leading_cons_of_ne hc]

omit [DecidableEq β] in
theorem drop_leading_flatMap (h : StandsFor encode a b) (text : List α) :
    (text.flatMap encode).drop (leading a text) = (text.drop (leading a text)).flatMap encode := by
  induction text with
  | nil => rfl
  | cons c rest ih =>
    by_cases hc : c = a
    · subst hc
      rw [List.flatMap_cons, h.alone, List.singleton_append, leading_cons_self, List.drop_succ_cons,
        List.drop_succ_cons, ih]
    · rw [leading_cons_of_ne hc, List.drop_zero, List.drop_zero]

/-- Parentheses are in parentheses in a text as they are in the bytes it is written as. -/
theorem nestedLength_flatMap (hopening : StandsFor encode opening opening')
    (hclosing : StandsFor encode closing closing') (text : List α) :
    nestedLength opening' closing' (text.flatMap encode) = nestedLength opening closing text := by
  rw [nestedLength, leading_flatMap hopening, drop_leading_flatMap hopening,
    leading_flatMap hclosing, nestedLength]

end Encoding

/-! ### Both ways -/

/-- What both applications come to where `n` opening parentheses and then `m` closing ones stand first:
with enough fuel they end, the one with a match and the other with candidates. -/
structure Recognised (n m : Nat) (scan : Nat → Option (Outcome × Scanner α))
    (search : Nat → Tree.Trial Tree.Candidates) : Prop where
  scanned : ∃ enough t, ∀ fuel ≥ enough,
    scan fuel = some (.matched ⟨0, if n ≤ m then 2 * n else 0⟩, t)
  searched : ∃ enough found, (∀ fuel ≥ enough, search fuel = .done found []) ∧
    (∃ best, found.best? = some best ∧ best.length = if n ≤ m then 2 * n else 0) ∧
    found.size = if 1 ≤ n ∧ n ≤ m then 2 else 1

/-- The applications need not be to the same symbols, as long as as many are nested. -/
theorem recognised_of_nestedLength_eq [Symbol α] [DecidableEq α] {opening closing : α}
    {opening' closing' : UInt8} {P T : Nonterminal} {keys : Tree.Rule.ParenthesesKeys}
    {g : Grammar (Rule α)} {g' : Grammar Tree.Rule} {source : Source α} {input : List α}
    {bytes : List UInt8} (hne : opening ≠ closing) (hne' : opening' ≠ closing')
    (hP : g.body? P = some (Rule.parentheses opening closing P))
    (hT : g'.body? T = some (Tree.Rule.parentheses keys opening' closing' T))
    (hsource : source.Delivers input)
    (hbytes : nestedLength opening' closing' bytes = nestedLength opening closing input) :
    Recognised (leading opening input) (leading closing (input.drop (leading opening input)))
      (fun fuel => (Rule.nonterminal P).apply g fuel (.ofSource source))
      (fun fuel => (Tree.Rule.nonterminal T).apply g' fuel bytes) := by
  obtain ⟨found, hfound, hnested⟩ := Tree.Rule.apply_parentheses hne' hT bytes
  rw [hbytes] at hnested
  refine ⟨Rule.apply_parentheses hne hP hsource, 3 * bytes.length + 4, found, fun fuel hfuel => ?_,
    hnested.best, hnested.size.trans ?_⟩
  · rcases Tree.Rule.apply_mono g' hfuel (.nonterminal T) bytes with hnone | heq
    · cases hfound.symm.trans hnone
    · exact heq.symm.trans hfound
  · rw [nestedLength]
    split <;> split <;> split <;> omega

/-- **Parentheses in parentheses are recognised alike.**  In any grammars that have the rule, the
application to a scanner over a text and that to the bytes of the text both end.  They match all the
parentheses that open at the beginning and as many that close, or nothing if fewer close; and then, or
if none opens, the empty match is the only candidate, and else one of two.  The same holds of bytes in
both. -/
theorem parentheses_alike (P : Nonterminal) {T : Nonterminal} {keys : Tree.Rule.ParenthesesKeys}
    {g' : Grammar Tree.Rule} (hT : g'.body? T = some (Tree.Rule.parentheses keys 40 41 T)) :
    (∀ g : Grammar (Rule Char), g.body? P = some (Rule.parentheses '(' ')' P) →
      ∀ (source : Source Char) (text : List Char), source.Delivers text →
        Recognised (leading '(' text) (leading ')' (text.drop (leading '(' text)))
          (fun fuel => (Rule.nonterminal P).apply g fuel (.ofSource source))
          (fun fuel => (Tree.Rule.nonterminal T).apply g' fuel
            (text.flatMap String.utf8EncodeChar))) ∧
    ∀ g : Grammar (Rule UInt8), g.body? P = some (Rule.parentheses 40 41 P) →
      ∀ (source : Source UInt8) (bytes : List UInt8), source.Delivers bytes →
        Recognised (leading 40 bytes) (leading 41 (bytes.drop (leading 40 bytes)))
          (fun fuel => (Rule.nonterminal P).apply g fuel (.ofSource source))
          (fun fuel => (Tree.Rule.nonterminal T).apply g' fuel bytes) := by
  constructor
  · intro g hP source text hsource
    have hopening : StandsFor String.utf8EncodeChar '(' 40 := standsFor_ascii (by decide)
    have hclosing : StandsFor String.utf8EncodeChar ')' 41 := standsFor_ascii (by decide)
    exact recognised_of_nestedLength_eq (by decide) (by decide) hP hT hsource
      (nestedLength_flatMap hopening hclosing text)
  · intro g hP source bytes hsource
    exact recognised_of_nestedLength_eq (by decide) (by decide) hP hT hsource rfl

/-- Two pairs before another character, in two reads; and two opening parentheses with only one closed,
as bytes. -/
theorem parentheses_alike_of_two_pairs :
    let keys : Tree.Rule.ParenthesesKeys := ⟨"nest", "group", "open", "close", "empty"⟩
    let trees : Grammar Tree.Rule := ⟨1, [(0, .parentheses keys 40 41 ⟨0, "nest"⟩)]⟩
    Recognised 2 2
        (fun fuel => (Rule.nonterminal ⟨0, "parens"⟩).apply
          ⟨1, [(0, .parentheses '(' ')' ⟨0, "parens"⟩)]⟩ fuel
          (.ofSource (.ofReads [.data ['(', '('], .data [')', ')', 'é']])))
        (fun fuel => (Tree.Rule.nonterminal ⟨0, "nest"⟩).apply trees fuel
          [40, 40, 41, 41, 195, 169]) ∧
      Recognised 2 1
        (fun fuel => (Rule.nonterminal ⟨0, "parens"⟩).apply
          ⟨1, [(0, .parentheses (40 : UInt8) 41 ⟨0, "parens"⟩)]⟩ fuel
          (.ofSource (.ofList [40, 40, 41])))
        (fun fuel => (Tree.Rule.nonterminal ⟨0, "nest"⟩).apply trees fuel [40, 40, 41]) := by
  intro keys trees
  have hT : trees.body? ⟨0, "nest"⟩ = some (.parentheses keys 40 41 ⟨0, "nest"⟩) := rfl
  obtain ⟨hchars, hbytes⟩ := parentheses_alike ⟨0, "parens"⟩ hT
  have hreads : (Source.ofReads [.data ['(', '('], .data [')', ')', 'é']]).Delivers
      ['(', '(', ')', ')', 'é'] :=
    ⟨_, rfl, _, rfl, _, rfl, _, rfl, _, rfl, rfl⟩
  have hlist : (Source.ofList [40, 40, 41]).Delivers [(40 : UInt8), 40, 41] := Source.delivers_ofList _
  exact ⟨hchars _ rfl _ _ hreads, hbytes ⟨1, [(0, .parentheses 40 41 ⟨0, "parens"⟩)]⟩ rfl _ _ hlist⟩

end Abnf
