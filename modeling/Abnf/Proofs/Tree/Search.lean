import Abnf.Tree.Combinator

/-!
# Abnf.Proofs.Tree.Search — a concatenation finds the best of all combinations

`Parser.combinations` goes through every way to choose a candidate of each parser, depth first and in
the order of the candidates.  `Parser.concat` keeps one tail per candidate instead, and chooses it by
the input's end that it comes to.  Nothing is lost by that: the first longest of several lists behind
one another is the first longest of the first longest of each (`FirstMax.append_left`, `.append_right`),
and a candidate in front adds the same length to every tail (`FirstMax.map`).

* `Parser.extend_agree`: the simulation, by induction on the parsers and on the candidates.
* `Parser.concat_eq_search`: the answer of a concatenation in terms of the combinations.
-/

namespace Abnf.Tree

/-! ### The first of the greatest -/

/-- `b` is in the list, with smaller ones before it and no greater one behind it. -/
inductive FirstMax {β : Type} (f : β → Nat) (b : β) : List β → Prop
  | head {rest : List β} (h : ∀ a ∈ rest, f a ≤ f b) : FirstMax f b (b :: rest)
  | tail {a : β} {rest : List β} (h : f a < f b) (hrest : FirstMax f b rest) :
    FirstMax f b (a :: rest)

namespace FirstMax

variable {β γ : Type} {f : β → Nat} {b : β} {l l' : List β}

theorem mem (h : FirstMax f b l) : b ∈ l := by
  induction h with
  | head _ => exact List.mem_cons_self
  | tail _ _ ih => exact List.mem_cons_of_mem _ ih

theorem le (h : FirstMax f b l) : ∀ a ∈ l, f a ≤ f b := by
  induction h with
  | head h =>
    rintro a (_ | ⟨_, ha⟩)
    · exact Nat.le_refl _
    · exact h a ha
  | tail h _ ih =>
    rintro a (_ | ⟨_, ha⟩)
    · exact Nat.le_of_lt h
    · exact ih a ha

/-- The order of the values is all that matters. -/
theorem map {g : γ → Nat} {e : β → γ} {k : Nat} (he : ∀ a, g (e a) = k + f a)
    (h : FirstMax f b l) : FirstMax g (e b) (l.map e) := by
  induction h with
  | head h =>
    refine .head fun a ha => ?_
    obtain ⟨c, hc, rfl⟩ := List.mem_map.mp ha
    have hle := h c hc
    rw [he, he]
    omega
  | tail h _ ih => exact .tail (by rw [he, he]; omega) ih

theorem append_left (h : FirstMax f b l) (hl' : ∀ a ∈ l', f a ≤ f b) : FirstMax f b (l ++ l') := by
  induction h with
  | head h =>
    refine .head fun a ha => ?_
    rcases List.mem_append.mp ha with ha | ha
    · exact h a ha
    · exact hl' a ha
  | tail h _ ih => exact .tail h ih

theorem append_right (h : FirstMax f b l') (hl : ∀ a ∈ l, f a < f b) : FirstMax f b (l ++ l') := by
  induction l with
  | nil => exact h
  | cons a rest ih =>
    exact .tail (hl a List.mem_cons_self) (ih fun c hc => hl c (List.mem_cons_of_mem _ hc))

end FirstMax

theorem Candidates.best?_cons (n : Node) (rest : List Node) :
    (Candidates.mk (n :: rest)).best? = match (Candidates.mk rest).best? with
      | none => some n
      | some m => if n.length < m.length then some m else some n := by
  simp only [best?, firstLongest]
  cases firstLongest rest with
  | none => rfl
  | some x =>
    obtain ⟨m, i⟩ := x
    dsimp only [Option.map_some]
    split <;> rfl

/-- There is a best candidate unless there is none at all. -/
theorem Candidates.best?_eq_none_iff {c : Candidates} : c.best? = none ↔ c.nodes = [] := by
  obtain ⟨_ | ⟨n, rest⟩⟩ := c
  · exact ⟨fun _ => rfl, fun _ => rfl⟩
  · rw [best?_cons]
    refine ⟨fun h => ?_, nofun⟩
    split at h
    · cases h
    · split at h <;> cases h

/-- The best candidate is the first of the longest. -/
theorem Candidates.firstMax_of_best? {c : Candidates} {m : Node} (h : c.best? = some m) :
    FirstMax Node.length m c.nodes := by
  obtain ⟨nodes⟩ := c
  induction nodes generalizing m with
  | nil => cases h
  | cons n rest ih =>
    rw [best?_cons] at h
    cases hrest : (Candidates.mk rest).best? with
    | none =>
      rw [hrest] at h
      cases h
      obtain rfl : rest = [] := best?_eq_none_iff.mp hrest
      exact .head (by simp)
    | some k =>
      rw [hrest] at h
      dsimp only at h
      have hk := ih hrest
      split at h <;> cases h
      · rename_i hlt
        exact .tail hlt hk
      · rename_i hle
        refine .head fun a ha => ?_
        have := hk.le a ha
        omega

/-! ### Trials that end alike -/

namespace Trial

variable {β γ β' γ' : Type}

/-- The same end after the same reports, and related values where there are any. -/
inductive Agree (R : β → γ → Prop) : Trial β → Trial γ → Prop
  | done {b : β} {c : γ} (h : R b c) (records : List Record) :
    Agree R (.done b records) (.done c records)
  | failed (misuse : Misuse) (records : List Record) :
    Agree R (.failed misuse records) (.failed misuse records)
  | unfinished : Agree R .unfinished .unfinished

variable {R : β → γ → Prop} {S : β' → γ' → Prop} {t : Trial β} {u : Trial γ}

theorem Agree.after (h : Agree R t u) (records : List Record) :
    Agree R (t.after records) (u.after records) := by
  cases h with
  | done h later => exact .done h _
  | failed misuse later => exact .failed misuse _
  | unfinished => exact .unfinished

theorem Agree.of_done {c : γ} {records : List Record} (h : Agree R t (.done c records)) :
    ∃ b, t = .done b records ∧ R b c := by
  cases h with
  | @done b _ h => exact ⟨b, rfl, h⟩

theorem Agree.of_failed {misuse : Misuse} {records : List Record}
    (h : Agree R t (.failed misuse records)) : t = .failed misuse records := by
  cases h
  rfl

theorem Agree.of_unfinished (h : Agree R t .unfinished) : t = .unfinished := by
  cases h
  rfl

theorem Agree.imp {R' : β → γ → Prop} (h : Agree R t u) (hR : ∀ b c, R b c → R' b c) :
    Agree R' t u := by
  cases h with
  | done h records => exact .done (hR _ _ h) records
  | failed misuse records => exact .failed misuse records
  | unfinished => exact .unfinished

theorem Agree.bind {f : β → Trial β'} {g : γ → Trial γ'} (h : Agree R t u)
    (hfg : ∀ b c, R b c → Agree S (f b) (g c)) : Agree S (t >>= f) (u >>= g) := by
  cases h with
  | done h records => exact (hfg _ _ h).after records
  | failed misuse records => exact .failed misuse records
  | unfinished => exact .unfinished

theorem Agree.refl : ∀ t : Trial β, Agree Eq t t
  | .done _ records => .done rfl records
  | .failed misuse records => .failed misuse records
  | .unfinished => .unfinished

theorem Agree.map_left {f : β → β'} {R : β' → γ → Prop} (h : Agree (fun b c => R (f b) c) t u) :
    Agree R (t >>= fun b => pure (f b)) u := by
  have hbind : Agree R (t >>= fun b => pure (f b)) (u >>= pure) :=
    h.bind fun _ _ hfb => .done hfb []
  rwa [bind_pure] at hbind

theorem done_of_bind {f : β → Trial γ} {c : γ} {records : List Record}
    (h : t >>= f = .done c records) :
    ∃ b first later, t = .done b first ∧ f b = .done c later := by
  cases t with
  | done b first =>
    rw [done_bind] at h
    cases hf : f b with
    | done c' later =>
      rw [hf] at h
      cases h
      exact ⟨b, first, later, rfl, hf⟩
    | failed misuse later =>
      rw [hf] at h
      cases h
    | unfinished =>
      rw [hf] at h
      cases h
  | failed misuse first => cases h
  | unfinished => cases h

end Trial

namespace Parser

/-! ### All combinations -/

/-- Goes through the candidates in order, and from each of them on in every way there is. -/
def branch (next : Node → Trial (List (List Node))) : List Node → Trial (List (List Node))
  | [] => pure []
  | n :: others => do
    let tails ← next n
    let combos ← branch next others
    pure (tails.map (n :: ·) ++ combos)

/-- All combinations of candidates, one of each parser and found in what the ones before it leave of
the input.  The first failure on the way is final, and a candidate that is longer than what is left
is one. -/
def combinations : List Parser → List UInt8 → Trial (List (List Node))
  | [], _ => pure [[]]
  | first :: others, rest => do
    let found ← first rest
    branch (fun n =>
      if n.length ≤ rest.length then combinations others (rest.drop n.length)
      else .fail (.overlongNode n.key n.length rest.length)) found.nodes

/-- One candidate of each parser, found in what the ones before it leave of the input. -/
inductive Combination : List Parser → List UInt8 → List Node → Prop
  | nil {rest : List UInt8} : Combination [] rest []
  | cons {first : Parser} {others : List Parser} {rest : List UInt8} {found : Candidates}
    {records : List Record} {n : Node} {tail : List Node} (h : first rest = .done found records)
    (hn : n ∈ found.nodes) (hfits : n.length ≤ rest.length)
    (htail : Combination others (rest.drop n.length) tail) :
    Combination (first :: others) rest (n :: tail)

theorem done_of_branch {next : Node → Trial (List (List Node))} :
    ∀ {nodes : List Node} {combos : List (List Node)} {records : List Record},
      branch next nodes = .done combos records →
      ∀ n ∈ nodes, ∃ tails later, next n = .done tails later
  | [], _, _, _ => by simp
  | n :: others, combos, records, h => by
    obtain ⟨tails, first, later, htails, h⟩ := Trial.done_of_bind h
    obtain ⟨rest, _, _, hrest, -⟩ := Trial.done_of_bind h
    rintro m (_ | ⟨_, hm⟩)
    · exact ⟨tails, first, htails⟩
    · exact done_of_branch hrest m hm

theorem mem_of_branch {next : Node → Trial (List (List Node))} {c : List Node} :
    ∀ {nodes : List Node} {combos : List (List Node)} {records : List Record},
      branch next nodes = .done combos records →
      (c ∈ combos ↔ ∃ n ∈ nodes, ∃ tails later, next n = .done tails later ∧
        ∃ tail ∈ tails, c = n :: tail)
  | [], _, _, h => by
    cases h
    simp
  | n :: others, combos, records, h => by
    obtain ⟨tails, first, later, htails, h⟩ := Trial.done_of_bind h
    obtain ⟨rest, _, _, hrest, h⟩ := Trial.done_of_bind h
    cases h
    rw [List.mem_append, mem_of_branch hrest]
    constructor
    · rintro (hc | ⟨m, hm, hnext⟩)
      · obtain ⟨tail, htail, rfl⟩ := List.mem_map.mp hc
        exact ⟨n, List.mem_cons_self, tails, first, htails, tail, htail, rfl⟩
      · exact ⟨m, List.mem_cons_of_mem _ hm, hnext⟩
    · rintro ⟨m, _ | ⟨_, hm⟩, tails', later', hnext, tail, htail, rfl⟩
      · rw [htails] at hnext
        cases hnext
        exact .inl (List.mem_map_of_mem htail)
      · exact .inr ⟨m, hm, tails', later', hnext, tail, htail, rfl⟩

/-- A search that ends has found every combination and nothing else. -/
theorem mem_combinations {c : List Node} : ∀ {parsers : List Parser} {rest : List UInt8}
    {combos : List (List Node)} {records : List Record},
    combinations parsers rest = .done combos records → (c ∈ combos ↔ Combination parsers rest c)
  | [], rest, _, _, h => by
    cases h
    constructor
    · intro hc
      obtain rfl := List.mem_singleton.mp hc
      exact .nil
    · rintro ⟨⟩
      exact List.mem_singleton.mpr rfl
  | first :: others, rest, combos, records, h => by
    obtain ⟨found, _, _, hfound, h⟩ := Trial.done_of_bind h
    rw [mem_of_branch h]
    constructor
    · rintro ⟨n, hn, tails, later, hnext, tail, htail, rfl⟩
      by_cases hfits : n.length ≤ rest.length
      · rw [if_pos hfits] at hnext
        exact .cons hfound hn hfits ((mem_combinations hnext).mp htail)
      · rw [if_neg hfits] at hnext
        cases hnext
    · intro hc
      cases hc with
      | @cons _ _ _ _ _ n tail hfound' hn hfits htail =>
        cases hfound.symm.trans hfound'
        obtain ⟨tails, later, hnext⟩ := done_of_branch h n hn
        refine ⟨n, hn, tails, later, hnext, tail, ?_, rfl⟩
        rw [if_pos hfits] at hnext
        exact (mem_combinations hnext).mpr htail

/-! ### One tail for each candidate -/

/-- A combination as a node that covers the input up to its end. -/
def cover (key : String) (input : List UInt8) (offset : Nat) (c : List Node) : Node :=
  ⟨key, input.take (offset + Node.lengthList c), c⟩

theorem length_cover {key : String} {input : List UInt8} {offset : Nat} {c : List Node}
    (h : offset + Node.lengthList c ≤ input.length) :
    (cover key input offset c).length = offset + Node.lengthList c := by
  simp [cover, Node.length, h]

/-- The combinations end within the input, and the node, if there is one, is made of the first
longest of them. -/
def Stands (key : String) (input : List UInt8) (offset : Nat) (best? : Option Node)
    (combos : List (List Node)) : Prop :=
  (∀ c ∈ combos, offset + Node.lengthList c ≤ input.length) ∧
    match best? with
    | none => combos = []
    | some m => ∃ c, FirstMax Node.lengthList c combos ∧ m = cover key input offset c

section Stands

variable {key : String} {input : List UInt8} {offset : Nat}

/-- A candidate in front of every tail is in front of the best one. -/
theorem Stands.cons {n : Node} {best? : Option Node} {tails : List (List Node)}
    (h : Stands key input (offset + n.length) best? tails) :
    Stands key input offset (best?.map fun t => { t with children := n :: t.children })
      (tails.map (n :: ·)) := by
  obtain ⟨hfit, hbest⟩ := h
  refine ⟨fun c hc => ?_, ?_⟩
  · obtain ⟨tail, htail, rfl⟩ := List.mem_map.mp hc
    have hle := hfit tail htail
    show offset + (n.length + Node.lengthList tail) ≤ input.length
    omega
  · cases best? with
    | none =>
      obtain rfl : tails = [] := hbest
      exact List.map_nil
    | some m =>
      obtain ⟨c, hc, rfl⟩ := hbest
      refine ⟨n :: c, hc.map fun _ => rfl, ?_⟩
      have hend : offset + n.length + Node.lengthList c = offset + Node.lengthList (n :: c) :=
        Nat.add_assoc ..
      simp only [cover, hend]

/-- The best of some combinations beside the best of those behind them. -/
theorem Stands.append {best? : Option Node} {combos more : List (List Node)} {nodes : List Node}
    (h : Stands key input offset best? combos)
    (h' : Stands key input offset (Candidates.mk nodes).best? more) :
    Stands key input offset (Candidates.mk (best?.toList ++ nodes)).best? (combos ++ more) := by
  obtain ⟨hfit, hbest⟩ := h
  cases best? with
  | none =>
    obtain rfl : combos = [] := hbest
    exact h'
  | some m =>
    obtain ⟨hfit', hbest'⟩ := h'
    obtain ⟨c, hc, rfl⟩ := hbest
    refine ⟨fun d hd => (List.mem_append.mp hd).elim (hfit d) (hfit' d), ?_⟩
    rw [Option.toList_some, List.singleton_append, Candidates.best?_cons]
    cases hnodes : (Candidates.mk nodes).best? with
    | none =>
      rw [hnodes] at hbest'
      obtain rfl : more = [] := hbest'
      exact ⟨c, hc.append_left (by simp), rfl⟩
    | some m =>
      rw [hnodes] at hbest'
      obtain ⟨d, hd, rfl⟩ := hbest'
      dsimp only
      rw [length_cover (hfit c hc.mem), length_cover (hfit' d hd.mem)]
      by_cases hlt : offset + Node.lengthList c < offset + Node.lengthList d
      · rw [if_pos hlt]
        refine ⟨d, hd.append_right fun e he => ?_, rfl⟩
        have hle := hc.le e he
        omega
      · rw [if_neg hlt]
        refine ⟨c, hc.append_left fun e he => ?_, rfl⟩
        have hle := hd.le e he
        omega

theorem collect_agree {f : Node → Trial (Option Node)} {next : Node → Trial (List (List Node))}
    {nodes : List Node}
    (h : ∀ n, Trial.Agree (fun best? tails => Stands key input offset best? (tails.map (n :: ·)))
      (f n) (next n)) :
    Trial.Agree (fun extended combos => Stands key input offset (Candidates.mk extended).best? combos)
      (collect f nodes) (branch next nodes) := by
  induction nodes with
  | nil => exact .done ⟨by simp, rfl⟩ []
  | cons n others ih =>
    refine (h n).bind fun best? tails hn => ih.bind fun extended combos hrest => ?_
    refine .done ?_ []
    exact hn.append hrest

/-- **A concatenation simulates the search.**  What is kept for the parsers from `offset` on stands
for all their combinations there. -/
theorem extend_agree (parsers : List Parser) : ∀ offset, offset ≤ input.length →
    Trial.Agree (Stands key input offset) (extend key input parsers offset)
      (combinations parsers (input.drop offset)) := by
  induction parsers with
  | nil =>
    intro offset hoffset
    refine .done ⟨fun c hc => ?_, [], .head (by simp), rfl⟩ []
    obtain rfl := List.mem_singleton.mp hc
    exact hoffset
  | cons first others ih =>
    intro offset hoffset
    refine (Trial.Agree.refl _).bind ?_
    rintro found _ rfl
    refine (collect_agree fun n => ?_).map_left
    by_cases hfits : n.length ≤ (input.drop offset).length
    · have hend : offset + n.length ≤ input.length := by
        rw [List.length_drop] at hfits
        omega
      have htail := ih (offset + n.length) hend
      rw [← List.drop_drop] at htail
      simp only [checkFits, hfits, if_true, pure_bind]
      refine .map_left ?_
      exact htail.imp fun _ _ h => h.cons
    · simp only [checkFits, hfits, if_false]
      exact .failed _ []

end Stands

/-! ### The answer of a concatenation -/

theorem concat_agree (key : String) (parsers : List Parser) (input : List UInt8) :
    Trial.Agree
      (fun answer combos => (combos = [] ∧ answer = .empty) ∨
        ∃ c, FirstMax Node.lengthList c combos ∧ Node.lengthList c ≤ input.length ∧
          answer = .single ⟨key, input.take (Node.lengthList c), c⟩)
      (concat key parsers input) (combinations parsers input) := by
  have h := @extend_agree key input parsers 0 (Nat.zero_le _)
  rw [List.drop_zero] at h
  refine .map_left (f := Candidates.ofOption) (h.imp ?_)
  rintro (_ | m) combos ⟨hfit, hbest⟩
  · exact .inl ⟨hbest, rfl⟩
  · obtain ⟨c, hc, rfl⟩ := hbest
    have hle := hfit c hc.mem
    refine .inr ⟨c, hc, by omega, ?_⟩
    simp only [Candidates.ofOption, cover, Nat.zero_add]

/-- **A concatenation answers the best combination.**  It fails as the search for all combinations
fails, with the first failure on the way.  Otherwise it answers nothing if there is no combination,
and else one node: its children are the first of the longest combinations, in order, and its value is
as much of the input as they match. -/
theorem concat_eq_search (key : String) (parsers : List Parser) (input : List UInt8) :
    match combinations parsers input with
    | .failed misuse records => concat key parsers input = .failed misuse records
    | .unfinished => concat key parsers input = .unfinished
    | .done combos records =>
      (∀ c, c ∈ combos ↔ Combination parsers input c) ∧
        ((combos = [] ∧ concat key parsers input = .done .empty records) ∨
          ∃ c, FirstMax Node.lengthList c combos ∧ Node.lengthList c ≤ input.length ∧
            concat key parsers input =
              .done (.single ⟨key, input.take (Node.lengthList c), c⟩) records) := by
  have h := concat_agree key parsers input
  cases hcombos : combinations parsers input with
  | failed misuse records =>
    rw [hcombos] at h
    exact h.of_failed
  | unfinished =>
    rw [hcombos] at h
    exact h.of_unfinished
  | done combos records =>
    rw [hcombos] at h
    refine ⟨fun c => mem_combinations hcombos, ?_⟩
    obtain ⟨answer, hanswer, ⟨hnone, rfl⟩ | ⟨c, hc, hle, rfl⟩⟩ := h.of_done
    · exact .inl ⟨hnone, hanswer⟩
    · exact .inr ⟨c, hc, hle, hanswer⟩

/-- Of three combinations that match both bytes, the first one. -/
example :
    let prefixes : Parser := fun input =>
      pure ⟨(List.range (input.length + 1)).map fun n => .leaf "p" (input.take n)⟩
    concat "s" [prefixes, prefixes] [7, 8] =
      .done (.single ⟨"s", [7, 8], [.leaf "p" [], .leaf "p" [7, 8]]⟩) [] := by
  decide +kernel

end Parser

end Abnf.Tree
