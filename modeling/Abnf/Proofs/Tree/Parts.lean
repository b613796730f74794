import Abnf.Proofs.Tree.Search

/-!
# Abnf.Proofs.Tree.Parts — candidates are made of candidates of the parts

The parts may be any parsers.  What a combinator answers is then a node over candidates of its parts,
each found in what those before it leave of the input; and what it fails with is a failure of a part,
as long as no part answers more than it was given.

* `Parser.terminal_done`, `.byteThat_done`, `.concat_done`, `.repetition_done`: what is answered.
* `Parser.mem_concat`, `.mem_choice`, `.mem_repetition`: of what the candidates are made.
* `Parser.concat_failsIn`, `.choice_failsIn`, `.repetition_failsIn`: the failures.
-/

namespace Abnf.Tree

/-- Failures are of the kind `E`. -/
def Trial.FailsIn {β : Type} (E : Misuse → Prop) (t : Trial β) : Prop :=
  ∀ misuse records, t = .failed misuse records → E misuse

namespace Trial

variable {β γ : Type} {E : Misuse → Prop}

theorem failsIn_done (b : β) (records : List Record) : (Trial.done b records).FailsIn E :=
  fun _ _ h => nomatch h

theorem FailsIn.bind {t : Trial β} {f : β → Trial γ} (ht : t.FailsIn E)
    (hf : ∀ b records, t = .done b records → (f b).FailsIn E) : (t >>= f).FailsIn E := by
  intro misuse records h
  cases t with
  | done b first =>
    rw [done_bind] at h
    cases hb : f b with
    | done c later =>
      rw [hb] at h
      cases h
    | failed misuse' later =>
      rw [hb] at h
      cases h
      exact hf b first rfl _ _ hb
    | unfinished =>
      rw [hb] at h
      cases h
  | failed misuse' first =>
    cases h
    exact ht _ _ rfl
  | unfinished => cases h

end Trial

@[simp] theorem Node.lengthList_replicate (k : Nat) (n : Node) :
    Node.lengthList (List.replicate k n) = k * n.length := by
  induction k with
  | zero => rw [Nat.zero_mul, List.replicate_zero, lengthList]
  | succ k ih =>
    rw [List.replicate_succ, lengthList, ih, Nat.succ_mul]
    exact Nat.add_comm ..

/-- A node over the beginning of an input is as long as that. -/
theorem Node.length_of_take {key : String} {input : List UInt8} {children : List Node} {k : Nat}
    (h : k ≤ input.length) : Node.length ⟨key, input.take k, children⟩ = k := by
  rw [length, List.length_take, Nat.min_eq_left h]

namespace Parser

/-! ### Combinations -/

theorem Combination.lengthList_le {parsers : List Parser} {rest : List UInt8} {c : List Node}
    (h : Combination parsers rest c) : Node.lengthList c ≤ rest.length := by
  induction h with
  | nil => exact Nat.zero_le _
  | cons _ _ hfits _ ih =>
    rw [List.length_drop] at ih
    rw [Node.lengthList]
    omega

/-- A node that matches nothing can be repeated at its place. -/
theorem combination_replicate {p : Parser} {rest : List UInt8} {found : Candidates}
    {records : List Record} {n : Node} (h : p rest = .done found records) (hn : n ∈ found.nodes)
    (hempty : n.length = 0) (k : Nat) :
    Combination (List.replicate k p) rest (List.replicate k n) := by
  induction k with
  | zero => exact .nil
  | succ k ih =>
    refine .cons h hn (by omega) ?_
    rw [hempty]
    exact ih

/-! ### Candidates -/

variable {key : String} {parsers : List Parser} {p : Parser} {b : Bounds} {input rest : List UInt8}
  {found : Candidates} {records : List Record} {n : Node}

theorem mem_nodes_of_best? (h : found.best? = some n) : n ∈ found.nodes := by
  obtain ⟨⟨m, i⟩, hm, rfl⟩ := Option.map_eq_some_iff.mp h
  exact List.mem_of_getElem? (Candidates.getElem?_firstLongest hm)

theorem terminal_done {expected : List UInt8}
    (h : terminal key expected input = .done found records) :
    (expected <+: input ∧ found.nodes = [.leaf key expected]) ∨
      (¬ expected <+: input ∧ found.nodes = []) := by
  cases h
  split
  · rename_i hpre
    exact .inl ⟨List.isPrefixOf_iff_prefix.mp hpre, rfl⟩
  · rename_i hpre
    exact .inr ⟨fun h => hpre (List.isPrefixOf_iff_prefix.mpr h), rfl⟩

theorem byteThat_done {test : UInt8 → Bool} (h : byteThat key test input = .done found records) :
    (∃ b rest, input = b :: rest ∧ test b = true ∧ found.nodes = [.leaf key [b]]) ∨
      ((∀ b, input.head? = some b → test b = false) ∧ found.nodes = []) := by
  cases input with
  | nil =>
    cases h
    exact .inr ⟨by simp, rfl⟩
  | cons b rest =>
    cases h
    split
    · rename_i htest
      exact .inl ⟨b, rest, rfl, htest, rfl⟩
    · rename_i htest
      exact .inr ⟨by simpa using htest, rfl⟩

theorem concat_done (h : concat key parsers input = .done found records) :
    ∃ combos, combinations parsers input = .done combos records ∧
      ((combos = [] ∧ found = .empty) ∨ ∃ c, FirstMax Node.lengthList c combos ∧
        Node.lengthList c ≤ input.length ∧
          found = .single ⟨key, input.take (Node.lengthList c), c⟩) := by
  have hagree := concat_agree key parsers input
  rw [h] at hagree
  cases hcombos : combinations parsers input with
  | done combos later =>
    rw [hcombos] at hagree
    cases hagree with
    | done hbest => exact ⟨combos, rfl, hbest⟩
  | failed misuse later =>
    rw [hcombos] at hagree
    cases hagree
  | unfinished =>
    rw [hcombos] at hagree
    cases hagree

theorem mem_concat (h : concat key parsers input = .done found records) (hn : n ∈ found.nodes) :
    ∃ c, Combination parsers input c ∧ n = ⟨key, input.take (Node.lengthList c), c⟩ := by
  obtain ⟨combos, hcombos, ⟨-, rfl⟩ | ⟨c, hc, -, rfl⟩⟩ := concat_done h
  · cases hn
  · exact ⟨c, (mem_combinations hcombos).mp hc.mem, List.mem_singleton.mp hn⟩

theorem mem_choice : ∀ {parsers : List Parser} {found : Candidates} {records : List Record},
    choice key parsers input = .done found records → n ∈ found.nodes →
    ∃ p ∈ parsers, ∃ inner later, p input = .done inner later ∧ ∃ m ∈ inner.nodes, n = wrap key m
  | [], _, _, h, hn => by
    cases h
    cases hn
  | first :: others, found, records, h, hn => by
    obtain ⟨inner, _, _, hinner, h⟩ := Trial.done_of_bind h
    obtain ⟨more, _, _, hmore, h⟩ := Trial.done_of_bind h
    cases h
    rcases List.mem_append.mp hn with hn | hn
    · obtain ⟨m, hm, rfl⟩ := List.mem_map.mp hn
      exact ⟨first, List.mem_cons_self, inner, _, hinner, m, hm, rfl⟩
    · obtain ⟨p, hp, hcandidate⟩ := mem_choice hmore hn
      exact ⟨p, List.mem_cons_of_mem _ hp, hcandidate⟩

/-- One step of a repetition, or its end. -/
theorem steps_cases {count : Nat} {children : List Node}
    (h : steps b p rest count = .done children records) :
    (children = [] ∧ (b.allowMore count = false ∨
        ∃ found later, p rest = .done found later ∧ found.best? = none)) ∨
      (b.allowMore count = true ∧ ∃ found later step, p rest = .done found later ∧
        found.best? = some step ∧
        ((step.length = 0 ∧ children = List.replicate (b.min - count) step) ∨
          (step.length ≠ 0 ∧ step.length ≤ rest.length ∧ ∃ more later,
            steps b p (rest.drop step.length) (count + 1) = .done more later ∧
              children = step :: more))) := by
  rw [steps] at h
  split at h
  · rename_i hmore
    obtain ⟨found, later, _, hfound, h⟩ := Trial.done_of_bind h
    cases hbest : found.best? with
    | none =>
      rw [hbest] at h
      cases h
      exact .inl ⟨rfl, .inr ⟨found, later, hfound, hbest⟩⟩
    | some step =>
      rw [hbest] at h
      dsimp only at h
      refine .inr ⟨hmore, found, later, step, hfound, hbest, ?_⟩
      split at h
      · rename_i hempty
        cases h
        exact .inl ⟨(Node.isEmpty_iff step).mp hempty, rfl⟩
      · rename_i hempty
        split at h
        · rename_i hfits
          obtain ⟨more, _, _, hsteps, h⟩ := Trial.done_of_bind h
          cases h
          exact .inr ⟨fun hzero => hempty ((Node.isEmpty_iff step).mpr hzero), hfits, more, _,
            hsteps, rfl⟩
        · cases h
  · rename_i hmore
    cases h
    exact .inl ⟨rfl, .inl (by simpa using hmore)⟩

theorem combination_of_steps {count : Nat} {children : List Node}
    (h : steps b p rest count = .done children records) :
    Combination (List.replicate children.length p) rest children := by
  induction hk : rest.length using Nat.strongRecOn generalizing rest count children records with
  | ind k ih =>
    rcases steps_cases h with ⟨rfl, -⟩ | ⟨-, found, _, step, hfound, hbest, hstep⟩
    · exact .nil
    · have hmem := mem_nodes_of_best? hbest
      rcases hstep with ⟨hempty, rfl⟩ | ⟨hne, hfits, more, _, hmore, rfl⟩
      · rw [List.length_replicate]
        exact combination_replicate hfound hmem hempty _
      · have hshorter : (rest.drop step.length).length < k := by
          rw [List.length_drop]
          omega
        exact .cons hfound hmem hfits (ih _ hshorter hmore rfl)

/-- Copies of a last step fill up to the least number, which is not above the greatest. -/
theorem length_le_of_steps {count max : Nat} {children : List Node} (hb : b.inOrder)
    (hmax : b.max = some max) (hcount : count ≤ max)
    (h : steps b p rest count = .done children records) : count + children.length ≤ max := by
  have hmin : b.min ≤ max := by simpa [Bounds.inOrder, hmax] using hb
  induction hk : rest.length using Nat.strongRecOn generalizing rest count children records with
  | ind k ih =>
    rcases steps_cases h with ⟨rfl, -⟩ | ⟨hmore, found, _, step, -, -, hstep⟩
    · exact hcount
    · have hlt : count < max := by simpa [Bounds.allowMore, hmax] using hmore
      rcases hstep with ⟨-, rfl⟩ | ⟨hne, hfits, more, _, hsteps, rfl⟩
      · rw [List.length_replicate]
        omega
      · have hshorter : (rest.drop step.length).length < k := by
          rw [List.length_drop]
          omega
        have hrest := ih _ hshorter hlt hsteps rfl
        rw [List.length_cons]
        omega

theorem repetition_done (h : repetition key b p input = .done found records) :
    (b.inOrder = false ∧ found.nodes = []) ∨ (b.inOrder = true ∧
      ∃ children later, steps b p input 0 = .done children later ∧
        ((children.length < b.min ∧ found.nodes = []) ∨ (b.min ≤ children.length ∧
          found.nodes = [⟨key, input.take (Node.lengthList children), children⟩]))) := by
  unfold repetition at h
  split at h
  · rename_i hb
    obtain ⟨children, later, _, hsteps, h⟩ := Trial.done_of_bind h
    refine .inr ⟨hb, children, later, hsteps, ?_⟩
    split at h
    · rename_i hmin
      cases h
      exact .inl ⟨hmin, rfl⟩
    · rename_i hmin
      cases h
      exact .inr ⟨by omega, rfl⟩
  · rename_i hb
    cases h
    exact .inl ⟨by simpa using hb, rfl⟩

theorem mem_repetition (h : repetition key b p input = .done found records) (hn : n ∈ found.nodes) :
    ∃ children, Combination (List.replicate children.length p) input children ∧
      b.min ≤ children.length ∧ (∀ max, b.max = some max → children.length ≤ max) ∧
      n = ⟨key, input.take (Node.lengthList children), children⟩ := by
  rcases repetition_done h with ⟨-, hnone⟩ | ⟨hb, children, _, hsteps, ⟨-, hnone⟩ | ⟨hmin, hone⟩⟩
  · simp [hnone] at hn
  · simp [hnone] at hn
  · rw [hone] at hn
    refine ⟨children, combination_of_steps hsteps, hmin, fun max hmax => ?_,
      List.mem_singleton.mp hn⟩
    simpa using length_le_of_steps hb hmax (Nat.zero_le _) hsteps

/-! ### Failures -/

/-- Answers only what fits into the input. -/
def Fits (p : Parser) : Prop :=
  ∀ input found records, p input = .done found records → ∀ n ∈ found.nodes, n.length ≤ input.length

variable {E : Misuse → Prop}

theorem collect_failsIn {extend : Node → Trial (Option Node)} {nodes : List Node}
    (h : ∀ n ∈ nodes, (extend n).FailsIn E) : (collect extend nodes).FailsIn E := by
  induction nodes with
  | nil => exact Trial.failsIn_done _ _
  | cons n rest ih =>
    refine (h n List.mem_cons_self).bind fun _ _ _ => ?_
    refine (ih fun m hm => h m (List.mem_cons_of_mem _ hm)).bind fun _ _ _ => ?_
    exact Trial.failsIn_done _ _

theorem extend_failsIn (hfits : ∀ p ∈ parsers, p.Fits)
    (hfails : ∀ p ∈ parsers, ∀ input, (p input).FailsIn E) (offset : Nat) :
    (extend key input parsers offset).FailsIn E := by
  induction parsers generalizing offset with
  | nil => exact Trial.failsIn_done _ _
  | cons first others ih =>
    have hothers := ih (fun p hp => hfits p (List.mem_cons_of_mem _ hp))
      (fun p hp => hfails p (List.mem_cons_of_mem _ hp))
    refine (hfails first List.mem_cons_self _).bind fun found records hfound => ?_
    refine (collect_failsIn fun n hn => ?_).bind fun _ _ _ => Trial.failsIn_done _ _
    have hle := hfits first List.mem_cons_self _ _ _ hfound n hn
    simp only [checkFits, hle, if_true, pure_bind]
    exact (hothers _).bind fun _ _ _ => Trial.failsIn_done _ _

theorem concat_failsIn (hfits : ∀ p ∈ parsers, p.Fits)
    (hfails : ∀ p ∈ parsers, ∀ input, (p input).FailsIn E) :
    (concat key parsers input).FailsIn E :=
  (extend_failsIn hfits hfails 0).bind fun _ _ _ => Trial.failsIn_done _ _

theorem choice_failsIn (hfails : ∀ p ∈ parsers, (p input).FailsIn E) :
    (choice key parsers input).FailsIn E := by
  induction parsers with
  | nil => exact Trial.failsIn_done _ _
  | cons first others ih =>
    refine (hfails first List.mem_cons_self).bind fun _ _ _ => ?_
    refine (ih fun p hp => hfails p (List.mem_cons_of_mem _ hp)).bind fun _ _ _ => ?_
    exact Trial.failsIn_done _ _

theorem steps_failsIn (hfits : p.Fits) (hfails : ∀ input, (p input).FailsIn E) (count : Nat) :
    (steps b p rest count).FailsIn E := by
  induction hk : rest.length using Nat.strongRecOn generalizing rest count with
  | ind k ih =>
    rw [steps]
    split
    · refine (hfails rest).bind fun found records hfound => ?_
      cases hbest : found.best? with
      | none => exact Trial.failsIn_done _ _
      | some step =>
        have hle := hfits _ _ _ hfound step (mem_nodes_of_best? hbest)
        dsimp only
        split
        · exact Trial.failsIn_done _ _
        · rename_i hempty
          rw [Node.isEmpty_iff] at hempty
          have hshorter : (rest.drop step.length).length < k := by
            rw [List.length_drop]
            omega
          exact (ih _ hshorter _ rfl).bind fun _ _ _ => Trial.failsIn_done _ _
    · exact Trial.failsIn_done _ _

theorem repetition_failsIn (hfits : p.Fits) (hfails : ∀ input, (p input).FailsIn E) :
    (repetition key b p input).FailsIn E := by
  unfold repetition
  split
  · refine (steps_failsIn hfits hfails 0).bind fun children _ _ => ?_
    split
    · exact Trial.failsIn_done _ _
    · exact Trial.failsIn_done _ _
  · exact Trial.failsIn_done _ _

end Parser

end Abnf.Tree
