import Abnf.Proofs.Tree.Greedy

/-!
# Abnf.Proofs.Tree.Choices — choices within choices

A choice puts every candidate into a node of its own and keeps them all.  So choices within choices,
however deep, apply their parts from left to right as one loop over the leaves does, and put each
candidate into one node for each choice around the part (`Choices.parser_eq_leaves`, by induction on the
tree).  Wrapping keeps lengths, so the best candidate comes from the first of the parts whose own best is
longest: what is first and longest in lists behind one another is so in one of them
(`FirstBest.firstMax`).

* `Choices.parser_flattened`: failures, candidates and the best of them.
-/

namespace Abnf.Tree

/-! ### Trees of choices -/

/-- Choices within choices, over any parsers. -/
inductive Choices where
  /-- A part that is looked at no further. -/
  | part (parser : Parser)
  /-- A choice between branches. -/
  | choice (key : String) (branches : List Choices)

/-- A part and the keys of the choices that it stands in, the outermost first. -/
structure Leaf where
  keys : List String
  parser : Parser

/-- A part and the candidates that it found. -/
structure Found where
  leaf : Leaf
  candidates : Candidates

namespace Leaf

/-- The part in one more choice, around the others. -/
def under (key : String) (l : Leaf) : Leaf := ⟨key :: l.keys, l.parser⟩

/-- A candidate of the part, in one node for each choice around it. -/
def wrap (l : Leaf) (n : Node) : Node := l.keys.foldr Parser.wrap n

/-- Applies the part. -/
def find (input : List UInt8) (l : Leaf) : Trial Found := do
  let candidates ← l.parser input
  pure ⟨l, candidates⟩

@[simp] theorem value_wrap (l : Leaf) (n : Node) : (l.wrap n).value = n.value := by
  obtain ⟨keys, parser⟩ := l
  induction keys with
  | nil => rfl
  | cons key keys ih => exact ih

theorem length_wrap (l : Leaf) (n : Node) : (l.wrap n).length = 0 + n.length := by
  rw [Nat.zero_add, Node.length, value_wrap, Node.length]

end Leaf

namespace Found

/-- The part found the same in one more choice, around the others. -/
def under (key : String) (f : Found) : Found := ⟨f.leaf.under key, f.candidates⟩

/-- The candidates, each in one node for each choice around the part. -/
def wrapped (f : Found) : List Node := f.candidates.nodes.map f.leaf.wrap

theorem wrapped_under (key : String) (f : Found) :
    (f.under key).wrapped = f.wrapped.map (Parser.wrap key) := by
  simp only [wrapped, under, List.map_map]
  rfl

theorem wrapped_eq_nil_iff {f : Found} : f.wrapped = [] ↔ f.candidates.nodes = [] := List.map_eq_nil_iff

end Found

namespace Choices

mutual

/-- The parser that chooses as the tree says. -/
def parser : Choices → Parser
  | .part p => p
  | .choice key branches => Parser.choice key (parsers branches)

/-- The parsers of several branches. -/
def parsers : List Choices → List Parser
  | [] => []
  | branch :: rest => branch.parser :: parsers rest

end

mutual

/-- The parts from left to right. -/
def leaves : Choices → List Leaf
  | .part p => [⟨[], p⟩]
  | .choice key branches => (leavesList branches).map (Leaf.under key)

/-- The parts of several branches from left to right. -/
def leavesList : List Choices → List Leaf
  | [] => []
  | branch :: rest => branch.leaves ++ leavesList rest

end

/-! ### One loop over the parts -/

variable {input : List UInt8}

theorem mapM_find_under (key : String) (leaves : List Leaf) :
    (leaves.map (Leaf.under key)).mapM (Leaf.find input) =
      (do
        let found ← leaves.mapM (Leaf.find input)
        pure (found.map (Found.under key))) := by
  induction leaves with
  | nil => rfl
  | cons l rest ih =>
    have hhead : Leaf.find input (l.under key) = (do
        let f ← Leaf.find input l
        pure (f.under key)) := by
      simp only [Leaf.find, bind_assoc, pure_bind]
      rfl
    simp only [List.map_cons, List.mapM_cons, hhead, ih, bind_assoc, pure_bind]

theorem flatMap_wrapped_under (key : String) (found : List Found) :
    (found.map (Found.under key)).flatMap Found.wrapped =
      (found.flatMap Found.wrapped).map (Parser.wrap key) := by
  simp only [List.flatMap_map, List.map_flatMap, Found.wrapped_under]

mutual

/-- Choices within choices apply their parts from left to right. -/
theorem parser_eq_leaves : ∀ tree : Choices,
    tree.parser input = (do
      let found ← tree.leaves.mapM (Leaf.find input)
      pure ⟨found.flatMap Found.wrapped⟩)
  | .part p => by
    have hwrap : Leaf.wrap ⟨[], p⟩ = id := rfl
    have hwrapped (c : Candidates) : [(⟨⟨[], p⟩, c⟩ : Found)].flatMap Found.wrapped = c.nodes := by
      simp [Found.wrapped, hwrap]
    simp only [parser, leaves, List.mapM_cons, List.mapM_nil, Leaf.find, bind_assoc, pure_bind,
      hwrapped]
    exact (bind_pure (p input)).symm
  | .choice key branches => by
    simp only [parser, leaves, mapM_find_under, choice_eq_leaves key branches, bind_assoc, pure_bind,
      flatMap_wrapped_under]

theorem choice_eq_leaves (key : String) : ∀ branches : List Choices,
    Parser.choice key (parsers branches) input = (do
      let found ← (leavesList branches).mapM (Leaf.find input)
      pure ⟨(found.flatMap Found.wrapped).map (Parser.wrap key)⟩)
  | [] => rfl
  | branch :: rest => by
    simp only [parsers, leavesList, Parser.choice, List.mapM_append, parser_eq_leaves branch,
      choice_eq_leaves key rest, bind_assoc, pure_bind, List.flatMap_append, List.map_append]

end

end Choices

/-! ### The end of a loop -/

namespace Trial

variable {β γ : Type} {f : β → Trial γ}

theorem failed_of_bind {t : Trial β} {m : Misuse} {records : List Record}
    (h : t >>= f = .failed m records) :
    (∃ first, t = .failed m first) ∨
      ∃ b first later, t = .done b first ∧ f b = .failed m later := by
  cases t with
  | done b first =>
    rw [done_bind] at h
    cases hf : f b with
    | done c later =>
      rw [hf] at h
      cases h
    | failed m' later =>
      rw [hf] at h
      cases h
      exact .inr ⟨b, first, later, rfl, hf⟩
    | unfinished =>
      rw [hf] at h
      cases h
  | failed m' first =>
    cases h
    exact .inl ⟨_, rfl⟩
  | unfinished => cases h

theorem unfinished_of_bind {t : Trial β} (h : t >>= f = .unfinished) :
    t = .unfinished ∨ ∃ b first, t = .done b first ∧ f b = .unfinished := by
  cases t with
  | done b first =>
    rw [done_bind] at h
    cases hf : f b with
    | done c later =>
      rw [hf] at h
      cases h
    | failed m later =>
      rw [hf] at h
      cases h
    | unfinished => exact .inr ⟨b, first, rfl, hf⟩
  | failed m first => cases h
  | unfinished => exact .inl rfl

/-- A loop that comes to its end has done all its steps. -/
theorem done_of_mapM : ∀ {l : List β} {values : List γ} {records : List Record},
    l.mapM f = .done values records →
      List.Forall₂ (fun b c => ∃ later, f b = .done c later) l values
  | [], _, _, h => by
    cases h
    exact .nil
  | b :: rest, values, records, h => by
    rw [List.mapM_cons] at h
    obtain ⟨c, first, _, hc, h⟩ := done_of_bind h
    obtain ⟨others, _, _, hrest, h⟩ := done_of_bind h
    cases h
    exact .cons ⟨first, hc⟩ (done_of_mapM hrest)

/-- A loop that fails has done the steps before the one that fails. -/
theorem failed_of_mapM : ∀ {l : List β} {m : Misuse} {records : List Record},
    l.mapM f = .failed m records → ∃ before b after later, l = before ++ b :: after ∧
      (∀ a ∈ before, ∃ c first, f a = .done c first) ∧ f b = .failed m later
  | [], _, _, h => by cases h
  | b :: rest, m, records, h => by
    rw [List.mapM_cons] at h
    rcases failed_of_bind h with ⟨first, hb⟩ | ⟨c, first, later, hc, h⟩
    · exact ⟨[], b, rest, first, rfl, by simp, hb⟩
    · rcases failed_of_bind h with ⟨_, hrest⟩ | ⟨_, _, _, _, h⟩
      · obtain ⟨before, b', after, later', rfl, hbefore, hb'⟩ := failed_of_mapM hrest
        exact ⟨b :: before, b', after, later', rfl,
          List.forall_mem_cons.mpr ⟨⟨c, first, hc⟩, hbefore⟩, hb'⟩
      · cases h

/-- A loop comes to an end if all its steps do. -/
theorem mapM_ne_unfinished {l : List β} (hf : ∀ b ∈ l, f b ≠ .unfinished) :
    l.mapM f ≠ .unfinished := by
  induction l with
  | nil => exact nofun
  | cons b rest ih =>
    obtain ⟨hb, hrest⟩ := List.forall_mem_cons.mp hf
    intro h
    rw [List.mapM_cons] at h
    rcases unfinished_of_bind h with h | ⟨c, first, -, h⟩
    · exact hb h
    · rcases unfinished_of_bind h with h | ⟨_, _, -, h⟩
      · exact ih hrest h
      · cases h

end Trial

/-! ### The best candidate -/

/-- The part is the leftmost of those whose best candidate is longest, and the candidate the first of
that length that it found. -/
inductive FirstBest : List Found → Leaf → Node → Prop
  | here {f : Found} {rest : List Found} {m : Node}
    (hm : FirstMax Node.length m f.candidates.nodes)
    (hrest : ∀ g ∈ rest, ∀ k, g.candidates.best? = some k → k.length ≤ m.length) :
    FirstBest (f :: rest) f.leaf m
  | later {f : Found} {rest : List Found} {l : Leaf} {m : Node}
    (hf : ∀ k, f.candidates.best? = some k → k.length < m.length) (h : FirstBest rest l m) :
    FirstBest (f :: rest) l m

/-- What a part found is not longer than the best that it found. -/
theorem Found.exists_best {f : Found} {n : Node} (h : n ∈ f.wrapped) :
    ∃ k, f.candidates.best? = some k ∧ n.length ≤ k.length := by
  obtain ⟨n, hn, rfl⟩ := List.mem_map.mp h
  cases hbest : f.candidates.best? with
  | none =>
    rw [Candidates.best?_eq_none_iff.mp hbest] at hn
    cases hn
  | some k =>
    have hle := (Candidates.firstMax_of_best? hbest).le n hn
    exact ⟨k, rfl, by rw [Leaf.length_wrap]; omega⟩

namespace FirstBest

variable {found : List Found} {l : Leaf} {m : Node}

theorem le (h : FirstBest found l m) :
    ∀ g ∈ found, ∀ k, g.candidates.best? = some k → k.length ≤ m.length := by
  induction h with
  | here hm hrest =>
    refine List.forall_mem_cons.mpr ⟨fun k hk => ?_, hrest⟩
    exact hm.le k (Candidates.firstMax_of_best? hk).mem
  | later hf _ ih => exact List.forall_mem_cons.mpr ⟨fun k hk => (hf k hk).le, ih⟩

/-- The first longest of the candidates behind one another. -/
theorem firstMax (h : FirstBest found l m) :
    FirstMax Node.length (l.wrap m) (found.flatMap Found.wrapped) := by
  induction h with
  | @here f rest m hm hrest =>
    rw [List.flatMap_cons]
    refine (hm.map f.leaf.length_wrap).append_left fun n hn => ?_
    obtain ⟨g, hg, hn⟩ := List.mem_flatMap.mp hn
    obtain ⟨k, hk, hle⟩ := g.exists_best hn
    rw [Leaf.length_wrap, Nat.zero_add]
    exact hle.trans (hrest g hg k hk)
  | @later f rest l m hf _ ih =>
    rw [List.flatMap_cons]
    refine ih.append_right fun n hn => ?_
    obtain ⟨k, hk, hle⟩ := f.exists_best hn
    rw [Leaf.length_wrap, Nat.zero_add]
    exact hle.trans_lt (hf k hk)

end FirstBest

/-- One of the parts comes first, unless none of them found anything. -/
theorem exists_firstBest (found : List Found) :
    (∀ f ∈ found, f.candidates.nodes = []) ∨ ∃ l m, FirstBest found l m := by
  induction found with
  | nil => exact .inl (by simp)
  | cons f rest ih =>
    cases hbest : f.candidates.best? with
    | none =>
      rcases ih with hnone | ⟨l, m, h⟩
      · exact .inl (List.forall_mem_cons.mpr ⟨Candidates.best?_eq_none_iff.mp hbest, hnone⟩)
      · exact .inr ⟨l, m, .later (by simp [hbest]) h⟩
    | some n =>
      have hn := Candidates.firstMax_of_best? hbest
      rcases ih with hnone | ⟨l, m, h⟩
      · refine .inr ⟨f.leaf, n, .here hn fun g hg k hk => ?_⟩
        rw [Candidates.best?_eq_none_iff.mpr (hnone g hg)] at hk
        cases hk
      · by_cases hlt : n.length < m.length
        · refine .inr ⟨l, m, .later (fun k hk => ?_) h⟩
          cases hbest.symm.trans hk
          exact hlt
        · exact .inr ⟨f.leaf, n, .here hn fun g hg k hk => (h.le g hg k hk).trans (by omega)⟩

theorem best?_flatMap_eq_none_iff {found : List Found} :
    (Candidates.mk (found.flatMap Found.wrapped)).best? = none ↔
      ∀ f ∈ found, f.candidates.nodes = [] := by
  rw [Candidates.best?_eq_none_iff, List.flatMap_eq_nil_iff]
  exact forall₂_congr fun _ _ => Found.wrapped_eq_nil_iff

/-- The best of all is the best of the part that comes first. -/
theorem best?_flatMap_eq_some_iff {found : List Found} {n : Node} :
    (Candidates.mk (found.flatMap Found.wrapped)).best? = some n ↔
      ∃ l m, FirstBest found l m ∧ n = l.wrap m := by
  constructor
  · intro hn
    rcases exists_firstBest found with hnone | ⟨l, m, hbest⟩
    · cases hn.symm.trans (best?_flatMap_eq_none_iff.mpr hnone)
    · exact ⟨l, m, hbest, (Candidates.best?_eq_some_iff.mp hn).unique hbest.firstMax⟩
  · rintro ⟨l, m, hbest, rfl⟩
    exact Candidates.best?_eq_some_iff.mpr hbest.firstMax

namespace Choices

variable {input : List UInt8}

theorem done_of_find {l : Leaf} {f : Found} {records : List Record}
    (h : l.find input = .done f records) :
    f.leaf = l ∧ ∃ later, l.parser input = .done f.candidates later := by
  obtain ⟨candidates, first, _, hfirst, h⟩ := Trial.done_of_bind h
  cases h
  exact ⟨rfl, first, hfirst⟩

theorem failed_of_find {l : Leaf} {m : Misuse} {records : List Record}
    (h : l.find input = .failed m records) : ∃ first, l.parser input = .failed m first := by
  rcases Trial.failed_of_bind h with hfirst | ⟨_, _, _, _, h⟩
  · exact hfirst
  · cases h

theorem map_leaf_of_find {leaves : List Leaf} {found : List Found}
    (h : List.Forall₂ (fun l f => ∃ records, l.find input = .done f records) leaves found) :
    found.map Found.leaf = leaves ∧
      ∀ f ∈ found, ∃ later, f.leaf.parser input = .done f.candidates later := by
  induction h with
  | nil => exact ⟨rfl, by simp⟩
  | cons hf _ ih =>
    obtain ⟨records, hf⟩ := hf
    obtain ⟨rfl, hdone⟩ := done_of_find hf
    exact ⟨by rw [List.map_cons, ih.1], List.forall_mem_cons.mpr ⟨hdone, ih.2⟩⟩

/-- Parts that come to an end make choices that do; what each part found is there. -/
theorem done_or_failed (tree : Choices) (hends : ∀ l ∈ tree.leaves, l.parser input ≠ .unfinished) :
    (∃ m records, tree.parser input = .failed m records) ∨
      ∃ (found : List Found) (records : List Record),
        tree.parser input = .done ⟨found.flatMap Found.wrapped⟩ records ∧
        found.map Found.leaf = tree.leaves ∧
        ∀ f ∈ found, ∃ later, f.leaf.parser input = .done f.candidates later := by
  have hfind : ∀ l ∈ tree.leaves, l.find input ≠ .unfinished := by
    intro l hl h
    rcases Trial.unfinished_of_bind h with h | ⟨_, _, -, h⟩
    · exact hends l hl h
    · cases h
  rw [parser_eq_leaves]
  cases hloop : tree.leaves.mapM (Leaf.find input) with
  | done found records =>
    exact .inr ⟨found, records ++ [], rfl, map_leaf_of_find (Trial.done_of_mapM hloop)⟩
  | failed m records => exact .inl ⟨m, records, rfl⟩
  | unfinished => exact absurd hloop (Trial.mapM_ne_unfinished hfind)

/-- A failure is that of the first part that fails; the parts before it came to their ends. -/
theorem first_failure {tree : Choices} {m : Misuse} {records : List Record}
    (h : tree.parser input = .failed m records) :
    ∃ before l after later, tree.leaves = before ++ l :: after ∧
      (∀ b ∈ before, ∃ c first, b.parser input = .done c first) ∧
      l.parser input = .failed m later := by
  rw [parser_eq_leaves] at h
  rcases Trial.failed_of_bind h with ⟨_, hloop⟩ | ⟨_, _, _, _, h⟩
  · obtain ⟨before, l, after, _, hleaves, hbefore, hl⟩ := Trial.failed_of_mapM hloop
    obtain ⟨later, hl⟩ := failed_of_find hl
    refine ⟨before, l, after, later, hleaves, fun b hb => ?_, hl⟩
    obtain ⟨f, _, hf⟩ := hbefore b hb
    exact ⟨f.candidates, (done_of_find hf).2⟩
  · cases h

/-- **Choices within choices.**  Over parts that come to an end, a tree of choices fails just when one
of the parts does, and then as the first of them.  Else its candidates are those of all parts from left
to right, in their order and as often as they were found, each in one node for each choice around the
part.  The best of them, taken out or not, comes from the leftmost of the parts whose best candidate is
longest, and is the first of that length there; and there is none just when no part found anything. -/
theorem parser_flattened (tree : Choices) (input : List UInt8)
    (hends : ∀ l ∈ tree.leaves, l.parser input ≠ .unfinished) :
    ((∃ m records, tree.parser input = .failed m records) ↔
        ∃ l ∈ tree.leaves, ∃ m records, l.parser input = .failed m records) ∧
      (∀ m records, tree.parser input = .failed m records →
        ∃ before l after later, tree.leaves = before ++ l :: after ∧
          (∀ b ∈ before, ∃ c first, b.parser input = .done c first) ∧
          l.parser input = .failed m later) ∧
      ((∀ m records, tree.parser input ≠ .failed m records) →
        ∃ (c : Candidates) (records : List Record) (found : List Found),
          tree.parser input = .done c records ∧ found.map Found.leaf = tree.leaves ∧
          (∀ f ∈ found, ∃ later, f.leaf.parser input = .done f.candidates later) ∧
          c.nodes = found.flatMap (fun f => f.candidates.nodes.map f.leaf.wrap) ∧
          c.takeBest? = c.best? ∧
          (c.best? = none ↔ ∀ f ∈ found, f.candidates.nodes = []) ∧
          ∀ n, c.best? = some n ↔ ∃ l m, FirstBest found l m ∧ n = l.wrap m) := by
  refine ⟨⟨?_, ?_⟩, fun m records => first_failure, fun hnot => ?_⟩
  · rintro ⟨m, records, h⟩
    obtain ⟨before, l, after, later, hleaves, -, hl⟩ := first_failure h
    exact ⟨l, by simp [hleaves], m, later, hl⟩
  · rintro ⟨l, hl, m, records, hfailed⟩
    rcases done_or_failed tree hends with h | ⟨found, _, -, hleaves, hfound⟩
    · exact h
    · rw [← hleaves] at hl
      obtain ⟨f, hf, rfl⟩ := List.mem_map.mp hl
      obtain ⟨later, hdone⟩ := hfound f hf
      cases hfailed.symm.trans hdone
  · rcases done_or_failed tree hends with ⟨m, records, h⟩ | ⟨found, records, h, hleaves, hfound⟩
    · exact absurd h (hnot m records)
    · exact ⟨_, records, found, h, hleaves, hfound, rfl, Candidates.takeBest?_eq_best? _,
        best?_flatMap_eq_none_iff, fun n => best?_flatMap_eq_some_iff⟩

/-- Two longest candidates in one part and another behind it, a part that finds nothing, and a choice
of no branches. -/
theorem parser_flattened_of_ties :
    ∃ c records, (Choices.choice "outer" [.part (.terminal "a" [97]),
        .choice "inner" [.part fun _ => pure .empty,
          .part fun _ => pure ⟨[.leaf "x" [97], .leaf "y" [97, 98], .leaf "z" [97, 98]]⟩],
        .choice "none" [], .part (.terminal "ab" [97, 98])]).parser [97, 98] = .done c records ∧
      c.nodes.length = 5 ∧
      c.takeBest? = some ⟨"outer", [97, 98], [⟨"inner", [97, 98], [.leaf "y" [97, 98]]⟩]⟩ := by
  obtain ⟨-, -, hdone⟩ := parser_flattened (.choice "outer" [.part (.terminal "a" [97]),
    .choice "inner" [.part fun _ => pure .empty,
      .part fun _ => pure ⟨[.leaf "x" [97], .leaf "y" [97, 98], .leaf "z" [97, 98]]⟩],
    .choice "none" [], .part (.terminal "ab" [97, 98])]) [97, 98]
    (by simp [leaves, leavesList, Leaf.under, Parser.terminal])
  obtain ⟨c, records, found, hc, -, -, -, htake, -⟩ := hdone nofun
  cases hc
  exact ⟨_, _, rfl, rfl, htake⟩

end Choices

end Abnf.Tree
