import Abnf.Proofs.Tree.Containment
import Abnf.Proofs.Tree.Greedy

/-!
# Abnf.Proofs.Tree.Regrouping — sequences written differently

A concatenation keeps the best combination of its own parts, so that it matters where another stands
in it.  As the last part, it keeps the best tail for each beginning, which is the best one for the
whole: nothing is lost (`Condenses`).  As the first part, it drops beginnings that match less, behind
which the others might have matched more: what is left are some of the combinations there were.

A repetition, too, is a combination of so many copies of its part: the one that takes the best
candidate at each place.  It is the only one where there is never a choice.

* `Parser.combinations_regroup`: the searches of a grouped and a flat concatenation, side by side.
* `Parser.concat_regrouped`: their answers, and those of one that is grouped in front.
* `Parser.combinations_of_copies`: the search over copies of a part beside the steps of a repetition.
* `Parser.copies_against_repetition`: their answers.
-/

namespace Abnf.Tree

/-! ### The first of the greatest, in one list behind another -/

theorem FirstMax.append {β : Type} {f : β → Nat} {b c : β} {l l' : List β} (h : FirstMax f b l)
    (h' : FirstMax f c l') : FirstMax f (if f b < f c then c else b) (l ++ l') := by
  split
  · rename_i hlt
    exact h'.append_right fun a ha => Nat.lt_of_le_of_lt (h.le a ha) hlt
  · rename_i hle
    exact h.append_left fun a ha => (h'.le a ha).trans (Nat.le_of_not_lt hle)

/-! ### Trials that agree -/

namespace Trial

variable {β γ δ : Type} {R : β → γ → Prop} {S : γ → δ → Prop} {t : Trial β} {u : Trial γ}
  {v : Trial δ}

theorem Agree.symm (h : Agree R t u) : Agree (fun c b => R b c) u t := by
  cases h with
  | done h records => exact .done (R := fun c b => R b c) h records
  | failed misuse records => exact .failed misuse records
  | unfinished => exact .unfinished

theorem Agree.trans (h : Agree R t u) (h' : Agree S u v) :
    Agree (fun b d => ∃ c, R b c ∧ S c d) t v := by
  cases h with
  | done h records =>
    cases h' with
    | done h' => exact .done ⟨_, h, h'⟩ records
  | failed misuse records =>
    cases h'
    exact .failed misuse records
  | unfinished =>
    cases h'
    exact .unfinished

theorem Agree.eq {u : Trial β} (h : Agree Eq t u) : t = u := by
  cases h with
  | done h records => rw [h]
  | failed misuse records => rfl
  | unfinished => rfl

/-- The same end, but for the reports. -/
def quiet : Trial β → Trial β
  | .done value _ => .done value []
  | .failed misuse _ => .failed misuse []
  | .unfinished => .unfinished

@[simp] theorem quiet_after (records : List Record) (t : Trial β) :
    (t.after records).quiet = t.quiet := by
  cases t <;> rfl

theorem quiet_bind (t : Trial β) (f : β → Trial γ) :
    (t >>= f).quiet = t.quiet >>= fun b => (f b).quiet := by
  cases t with
  | done value records =>
    rw [done_bind, quiet_after]
    exact (after_nil _).symm
  | failed misuse records => rfl
  | unfinished => rfl

theorem Agree.quiet (h : Agree R t u) : Agree R t.quiet u.quiet := by
  cases h with
  | done h records => exact .done h []
  | failed misuse records => exact .failed misuse []
  | unfinished => exact .unfinished

end Trial

namespace Parser

variable {key inner : String} {as bs parsers : List Parser} {p : Parser} {input rest : List UInt8}
  {found : Candidates} {records : List Record} {n : Node} {c d : List Node}

/-! ### A group at the end -/

/-- Of either list, the first longest combinations match as much, and the last node of the one is made
of the last nodes of the other; or there are no combinations in either. -/
def Condenses (inner : String) (grouped flat : List (List Node)) : Prop :=
  (grouped = [] ∧ flat = []) ∨ ∃ before last, last.key = inner ∧
    Node.lengthList last.children = last.length ∧
    FirstMax Node.lengthList (before ++ [last]) grouped ∧
    FirstMax Node.lengthList (before ++ last.children) flat

theorem Condenses.cons {grouped flat : List (List Node)} (h : Condenses inner grouped flat)
    (n : Node) : Condenses inner (grouped.map (n :: ·)) (flat.map (n :: ·)) := by
  rcases h with ⟨rfl, rfl⟩ | ⟨before, last, hkey, hlength, hgrouped, hflat⟩
  · exact .inl ⟨rfl, rfl⟩
  · exact .inr ⟨n :: before, last, hkey, hlength, hgrouped.map (e := (n :: ·)) fun _ => rfl,
      hflat.map (e := (n :: ·)) fun _ => rfl⟩

theorem Condenses.append {grouped flat grouped' flat' : List (List Node)}
    (h : Condenses inner grouped flat) (h' : Condenses inner grouped' flat') :
    Condenses inner (grouped ++ grouped') (flat ++ flat') := by
  rcases h with ⟨rfl, rfl⟩ | ⟨before, last, hkey, hlength, hgrouped, hflat⟩
  · exact h'
  · rcases h' with ⟨rfl, rfl⟩ | ⟨before', last', hkey', hlength', hgrouped', hflat'⟩
    · rw [List.append_nil, List.append_nil]
      exact .inr ⟨before, last, hkey, hlength, hgrouped, hflat⟩
    · have hbest := hgrouped.append hgrouped'
      have hbest' := hflat.append hflat'
      simp only [Node.lengthList_append, Node.lengthList, hlength, hlength', Nat.add_zero]
        at hbest hbest'
      split at hbest
      · rename_i hlt
        rw [if_pos hlt] at hbest'
        exact .inr ⟨before', last', hkey', hlength', hbest, hbest'⟩
      · rename_i hle
        rw [if_neg hle] at hbest'
        exact .inr ⟨before, last, hkey, hlength, hbest, hbest'⟩

/-- A relation that holds of what each candidate leads to, and that appending keeps, holds of all that
they lead to. -/
theorem branch_agree {R : List (List Node) → List (List Node) → Prop} (hnil : R [] [])
    (happend : ∀ a b a' b', R a b → R a' b' → R (a ++ a') (b ++ b'))
    {next next' : Node → Trial (List (List Node))} {nodes : List Node}
    (h : ∀ n, Trial.Agree (fun tails tails' => R (tails.map (n :: ·)) (tails'.map (n :: ·)))
      (next n) (next' n)) :
    Trial.Agree R (branch next nodes) (branch next' nodes) := by
  induction nodes with
  | nil => exact .done hnil []
  | cons n others ih =>
    refine (h n).bind fun tails tails' htails => ih.bind fun combos combos' hcombos => ?_
    exact .done (happend _ _ _ _ htails hcombos) []

/-- The only part: its candidate, if there is one, is made of the best combination. -/
theorem combinations_of_concat (inner : String) (bs : List Parser) (rest : List UInt8) :
    Trial.Agree (Condenses inner) (combinations [concat inner bs] rest) (combinations bs rest) := by
  have hanswer := concat_agree inner bs rest
  have hbind : Trial.Agree (Condenses inner) (combinations [concat inner bs] rest)
      (combinations bs rest >>= pure) := by
    refine hanswer.bind fun answer combos h => ?_
    rcases h with ⟨rfl, rfl⟩ | ⟨c, hc, hle, rfl⟩
    · exact .done (.inl ⟨rfl, rfl⟩) []
    · have hlength : Node.length ⟨inner, rest.take (Node.lengthList c), c⟩ = Node.lengthList c :=
        Node.length_of_take hle
      simp only [Candidates.single, branch, hlength, hle, if_true, combinations]
      exact .done (.inr ⟨[], _, rfl, hlength.symm, .head (by simp), hc⟩) []
  rwa [bind_pure] at hbind

/-- **The searches run side by side.**  For each beginning, in the same order, the one finds the best
tail where the other goes through all of them. -/
theorem combinations_regroup (inner : String) (as bs : List Parser) : ∀ rest : List UInt8,
    Trial.Agree (Condenses inner) (combinations (as ++ [concat inner bs]) rest)
      (combinations (as ++ bs) rest) := by
  induction as with
  | nil => exact combinations_of_concat inner bs
  | cons first others ih =>
    intro rest
    refine (Trial.Agree.refl (first rest)).bind ?_
    rintro found _ rfl
    refine branch_agree (.inl ⟨rfl, rfl⟩) (fun _ _ _ _ h h' => h.append h') fun n => ?_
    split
    · exact (ih (rest.drop n.length)).imp fun _ _ h => h.cons n
    · exact .failed _ []

/-- Nothing on either side, or one node each of the same key and value; the last child of the one, in
place of which its own children stand in the other, is the group. -/
def Regrouped (inner : String) (grouped flat : Candidates) : Prop :=
  (grouped = .empty ∧ flat = .empty) ∨ ∃ key value before last, last.key = inner ∧
    grouped = .single ⟨key, value, before ++ [last]⟩ ∧
    flat = .single ⟨key, value, before ++ last.children⟩

theorem concat_regroup (key inner : String) (as bs : List Parser) (input : List UInt8) :
    Trial.Agree (Regrouped inner) (concat key (as ++ [concat inner bs]) input)
      (concat key (as ++ bs) input) := by
  have hchain := ((concat_agree key (as ++ [concat inner bs]) input).trans
    (combinations_regroup inner as bs input)).trans (concat_agree key (as ++ bs) input).symm
  refine hchain.imp ?_
  rintro grouped flat ⟨combos', ⟨combos, hgrouped, hcondenses⟩, hflat⟩
  rcases hcondenses with ⟨rfl, rfl⟩ | ⟨before, last, hkey, hlength, hbest, hbest'⟩
  · rcases hgrouped with ⟨-, rfl⟩ | ⟨c, hc, -⟩
    · rcases hflat with ⟨-, rfl⟩ | ⟨c, hc, -⟩
      · exact .inl ⟨rfl, rfl⟩
      · cases hc
    · cases hc
  · rcases hgrouped with ⟨rfl, -⟩ | ⟨c, hc, -, rfl⟩
    · cases hbest
    · rcases hflat with ⟨rfl, -⟩ | ⟨c', hc', -, rfl⟩
      · cases hbest'
      · obtain rfl := hc.unique hbest
        obtain rfl := hc'.unique hbest'
        refine .inr ⟨key, _, before, last, hkey, rfl, ?_⟩
        simp only [Node.lengthList_append, Node.lengthList, hlength, Nat.add_zero]

/-! ### A group in front -/

theorem Combination.append (h : Combination as rest c)
    (h' : Combination bs (rest.drop (Node.lengthList c)) d) : Combination (as ++ bs) rest (c ++ d) := by
  induction h with
  | nil => exact h'
  | cons hfound hn hfits _ ih =>
    rw [Node.lengthList, ← List.drop_drop] at h'
    exact .cons hfound hn hfits (ih h')

/-- What a concatenation answers is as long as any combination, so that there is an answer if there is
a combination. -/
theorem length_le_of_concat (h : concat key parsers input = .done found records)
    (hc : Combination parsers input c) :
    ∃ best, found = .single best ∧ Node.lengthList c ≤ best.length := by
  obtain ⟨combos, hcombos, hbest⟩ := concat_done h
  have hmem : c ∈ combos := (mem_combinations hcombos).mpr hc
  rcases hbest with ⟨rfl, -⟩ | ⟨d, hd, hle, rfl⟩
  · cases hmem
  · refine ⟨_, rfl, ?_⟩
    rw [Node.length_of_take hle]
    exact hd.le c hmem

/-- A node over a group in front and other parts is as long as a combination of all the parts. -/
theorem exists_combination_of_group
    (h : concat key (concat inner as :: bs) input = .done found records) (hn : n ∈ found.nodes) :
    ∃ c, Combination (as ++ bs) input c ∧ n.length = Node.lengthList c := by
  obtain ⟨c, hc, rfl⟩ := mem_concat h hn
  rw [Node.length_of_take hc.lengthList_le]
  cases hc with
  | cons hgroup hm _ htail =>
    obtain ⟨a, ha, rfl⟩ := mem_concat hgroup hm
    rw [Node.length_of_take ha.lengthList_le] at htail
    refine ⟨_, ha.append htail, ?_⟩
    rw [Node.lengthList, Node.lengthList_append, Node.length_of_take ha.lengthList_le]

/-- A concatenation of parts that come to an end fails or answers. -/
theorem done_of_concat (hparts : ∀ q ∈ parsers, ∀ rest, q rest ≠ .unfinished)
    (h : ∀ misuse records, concat key parsers input ≠ .failed misuse records) :
    ∃ found records, concat key parsers input = .done found records := by
  cases hanswer : concat key parsers input with
  | done found records => exact ⟨found, records, rfl⟩
  | failed misuse records => exact absurd hanswer (h misuse records)
  | unfinished =>
    have haccounts : (Journal.concat input.length key parsers input).Accounts
        (Application.IsOf parsers input) [] (concat key parsers input) :=
      Journal.accounts_concat (Nat.le_refl _) fun q hq offset _ => Application.isOf_of hq offset
    obtain ⟨a, ha, hunfinished⟩ := haccounts.ends hanswer
    obtain ⟨⟨q, hq, happlied⟩, -⟩ := haccounts.known a ha
    exact absurd (happlied.symm.trans hunfinished) (hparts q hq a.rest)

/-- **Grouping at the end loses nothing, grouping in front can only lose.**  The parts are any functions
that come to an end.  With the last parts in a group, a concatenation fails as without, answers nothing
where it did, and else a node of the same value, in which the group's children are gathered under one.
With the first parts in a group, it matches no more than without, unless that fails. -/
theorem concat_regrouped (key inner : String)
    (hparts : ∀ q ∈ as ++ bs, ∀ rest, q rest ≠ .unfinished) :
    Trial.Agree (Regrouped inner) (concat key (as ++ [concat inner bs]) input)
        (concat key (as ++ bs) input) ∧
      ((∀ misuse records, concat key (as ++ bs) input ≠ .failed misuse records) →
        ∀ n records, concat key (concat inner as :: bs) input = .done (.single n) records →
          ∃ best later, concat key (as ++ bs) input = .done (.single best) later ∧
            n.length ≤ best.length) := by
  refine ⟨concat_regroup key inner as bs input, fun hflat n records hgrouped => ?_⟩
  obtain ⟨found, later, hdone⟩ := done_of_concat hparts hflat
  obtain ⟨c, hc, hlength⟩ := exists_combination_of_group hgrouped (List.mem_singleton_self n)
  obtain ⟨best, rfl, hle⟩ := length_le_of_concat hdone hc
  exact ⟨best, later, hdone, hlength.trans_le hle⟩

/-- One byte, or two. -/
def oneOrTwo : Parser := fun rest =>
  .done ⟨[.leaf "one" (rest.take 1), .leaf "two" (rest.take 2)]⟩ []

/-- Two bytes if they are all there is, and else nothing. -/
def lastTwo : Parser := fun rest =>
  .done (.single (.leaf "last" (if rest.length = 2 then rest else []))) []

/-- In front, the group drops the single byte behind which there would have been two more. -/
theorem concat_regrouped_of_lost_byte :
    Trial.Agree (Regrouped "g") (concat "s" [oneOrTwo, concat "g" [lastTwo, oneOrTwo]] [1, 2, 3])
        (concat "s" [oneOrTwo, lastTwo, oneOrTwo] [1, 2, 3]) ∧
      concat "s" [concat "g" [oneOrTwo], lastTwo] [1, 2, 3] =
        .done (.single ⟨"s", [1, 2],
          [⟨"g", [1, 2], [.leaf "two" [1, 2]]⟩, .leaf "last" []]⟩) [] ∧
      ∃ best later, concat "s" [oneOrTwo, lastTwo] [1, 2, 3] = .done (.single best) later ∧
        2 ≤ best.length := by
  have hparts : ∀ q ∈ [oneOrTwo, lastTwo, oneOrTwo], ∀ rest, q rest ≠ .unfinished := by
    intro q hq rest
    simp only [List.mem_cons, List.not_mem_nil, or_false] at hq
    rcases hq with rfl | rfl | rfl <;> exact nofun
  have hgrouped : concat "s" [concat "g" [oneOrTwo], lastTwo] [1, 2, 3] =
      .done (.single ⟨"s", [1, 2],
        [⟨"g", [1, 2], [.leaf "two" [1, 2]]⟩, .leaf "last" []]⟩) [] := by
    decide +kernel
  have hflat : concat "s" [oneOrTwo, lastTwo] [1, 2, 3] = .done (.single ⟨"s", [1, 2, 3],
      [.leaf "one" [1], .leaf "last" [2, 3]]⟩) [] := by
    decide +kernel
  refine ⟨(@concat_regrouped [oneOrTwo] [lastTwo, oneOrTwo] [1, 2, 3] "s" "g" hparts).1, hgrouped, ?_⟩
  refine (@concat_regrouped [oneOrTwo] [lastTwo] [1, 2, 3] "s" "g" fun q hq => hparts q ?_).2
    (fun misuse records h => ?_) _ _ hgrouped
  · simp only [List.mem_append, List.mem_cons] at hq ⊢
    tauto
  · cases hflat.symm.trans h

/-! ### Copies of one part -/

/-- There is never a choice. -/
def AtMostOne (p : Parser) : Prop :=
  ∀ rest found records, p rest = .done found records → found.size ≤ 1

/-- The only combination of `k` nodes are the steps, and there is none if these are fewer. -/
def OnlySteps (k : Nat) (combos : List (List Node)) (steps : List Node) : Prop :=
  (combos = [] ∧ steps.length < k) ∨ (combos = [steps] ∧ steps.length = k)

theorem OnlySteps.cons {k : Nat} {combos : List (List Node)} {steps : List Node}
    (h : OnlySteps k combos steps) (n : Node) :
    OnlySteps (k + 1) (combos.map (n :: ·)) (n :: steps) := by
  rcases h with ⟨rfl, hlt⟩ | ⟨rfl, hlength⟩
  · exact .inl ⟨rfl, Nat.succ_lt_succ hlt⟩
  · exact .inr ⟨rfl, congrArg Nat.succ hlength⟩

/-- The search over one candidate. -/
theorem quiet_branch_singleton (next : Node → Trial (List (List Node))) (n : Node) :
    (branch next [n]).quiet = (next n).quiet >>= fun tails => pure (tails.map (n :: ·)) := by
  simp only [branch, pure_bind, List.append_nil, Trial.quiet_bind]
  rfl

/-- A part that matches nothing is found again by each of its copies. -/
theorem combinations_of_nothing (hfound : p rest = .done found records) (hn : found.nodes = [n])
    (hempty : n.length = 0) (k : Nat) :
    (combinations (List.replicate k p) rest).quiet = .done [List.replicate k n] [] := by
  induction k with
  | zero => rfl
  | succ k ih =>
    rw [List.replicate_succ, combinations, hfound, Trial.done_bind, Trial.quiet_after, hn,
      quiet_branch_singleton, hempty, if_pos (Nat.zero_le _), List.drop_zero, ih]
    rfl

/-- **Where there is no choice, the search over copies takes the steps of a repetition.**  It goes on
where the repetition stops and fills in. -/
theorem combinations_of_copies (hone : AtMostOne p) (k : Nat) : ∀ (rest : List UInt8) (count : Nat),
    Trial.Agree (OnlySteps k) (combinations (List.replicate k p) rest).quiet
      (steps (.exactly (count + k)) p rest count).quiet := by
  induction k with
  | zero =>
    intro rest count
    have hfull : ¬ (Bounds.exactly (count + 0)).allowMore count = true := by
      simp [Bounds.exactly, Bounds.allowMore]
    rw [steps, if_neg hfull]
    exact .done (.inr ⟨rfl, rfl⟩) []
  | succ k ih =>
    intro rest count
    have hmore : (Bounds.exactly (count + (k + 1))).allowMore count = true := by
      simp [Bounds.exactly, Bounds.allowMore]
    rw [List.replicate_succ, combinations, steps, if_pos hmore]
    cases hfound : p rest with
    | unfinished => exact .unfinished
    | failed misuse records => exact .failed misuse []
    | done found records =>
      have hsize : found.nodes.length ≤ 1 := hone rest found records hfound
      obtain ⟨nodes⟩ := found
      obtain rfl | ⟨n, rfl⟩ : nodes = [] ∨ ∃ n, nodes = [n] :=
        (Nat.le_one_iff_eq_zero_or_eq_one.mp hsize).imp List.length_eq_zero_iff.mp
          List.length_eq_one_iff.mp
      · exact .done (.inl ⟨rfl, Nat.succ_pos k⟩) []
      have hbest : (Candidates.mk [n]).best? = some n := rfl
      simp only [Trial.done_bind, Trial.quiet_after, quiet_branch_singleton, hbest]
      by_cases hempty : n.length = 0
      · have hfilled : count + (k + 1) - count = k + 1 := Nat.add_sub_cancel_left ..
        rw [hempty, if_pos (Nat.zero_le _), List.drop_zero,
          combinations_of_nothing hfound rfl hempty, dif_pos ((Node.isEmpty_iff n).mpr hempty)]
        exact .done (.inr ⟨congrArg (fun m => [List.replicate m n]) hfilled.symm,
          by rw [List.length_replicate]; exact hfilled⟩) []
      · rw [dif_neg (by simpa using hempty)]
        by_cases hfits : n.length ≤ rest.length
        · have hcount : count + (k + 1) = count + 1 + k := by omega
          rw [if_pos hfits, dif_pos hfits, hcount, Trial.quiet_bind]
          refine (ih (rest.drop n.length) (count + 1)).bind fun combos steps h => ?_
          exact .done (h.cons n) []
        · rw [if_neg hfits, dif_neg hfits]
          exact .failed _ []

/-- Without a choice, a repetition comes to what a concatenation of copies does. -/
theorem quiet_concat_copies (key : String) (hone : AtMostOne p) (k : Nat) (input : List UInt8) :
    (concat key (List.replicate k p) input).quiet =
      (repetition key (.exactly k) p input).quiet := by
  have hsteps := combinations_of_copies hone k input 0
  rw [Nat.zero_add] at hsteps
  have hchain := (concat_agree key (List.replicate k p) input).quiet.trans hsteps
  have hb : (Bounds.exactly k).inOrder = true := by simp [Bounds.exactly, Bounds.inOrder]
  rw [repetition, if_pos hb, Trial.quiet_bind, ← bind_pure (concat key _ input).quiet]
  refine Trial.Agree.eq (hchain.bind ?_)
  rintro answer children ⟨combos, hanswer, ⟨rfl, hlt⟩ | ⟨rfl, hlength⟩⟩
  · have hfew : children.length < (Bounds.exactly k).min := hlt
    rw [if_pos hfew]
    rcases hanswer with ⟨-, rfl⟩ | ⟨c, hc, -⟩
    · exact .done rfl []
    · cases hc
  · have henough : ¬ children.length < (Bounds.exactly k).min := hlength.ge.not_gt
    rw [if_neg henough]
    rcases hanswer with ⟨hnil, -⟩ | ⟨c, hc, -, rfl⟩
    · cases hnil
    · obtain rfl := List.mem_singleton.mp hc.mem
      exact .done rfl []

/-- **A repetition is one of the combinations of copies.**  The part is any function that comes to an
end.  Unless a concatenation of as many copies fails, it answers a node that is no shorter, if the
repetition answers one; and if the part never answers more than one candidate, both come to the same,
failures and copies of a step that matches nothing included. -/
theorem copies_against_repetition (key : String) (k : Nat) (hp : ∀ rest, p rest ≠ .unfinished) :
    ((∀ misuse records, concat key (List.replicate k p) input ≠ .failed misuse records) →
      ∀ n records, repetition key (.exactly k) p input = .done (.single n) records →
        ∃ best later, concat key (List.replicate k p) input = .done (.single best) later ∧
          n.length ≤ best.length) ∧
      (AtMostOne p → (concat key (List.replicate k p) input).quiet =
        (repetition key (.exactly k) p input).quiet) := by
  refine ⟨fun hconcat n records hrepetition => ?_, fun hone => quiet_concat_copies key hone k input⟩
  obtain ⟨found, later, hdone⟩ := done_of_concat
    (fun q hq => (List.eq_of_mem_replicate hq).symm ▸ hp) hconcat
  obtain ⟨children, hc, hmin, hmax, rfl⟩ := mem_repetition hrepetition (List.mem_singleton_self n)
  have hlength : children.length = k := Nat.le_antisymm (hmax k rfl) hmin
  rw [hlength] at hc
  obtain ⟨best, rfl, hle⟩ := length_le_of_concat hdone hc
  rw [Node.length_of_take hc.lengthList_le]
  exact ⟨best, later, hdone, hle⟩

/-- Of three bytes one or two, and of fewer the last two. -/
def tempting : Parser := fun rest => if rest.length = 3 then oneOrTwo rest else lastTwo rest

/-- The repetition takes two bytes and misses the two behind one.  Without a choice, a step that matches
nothing is filled in twice. -/
theorem copies_against_repetition_of_lost_byte :
    repetition "s" (.exactly 2) tempting [1, 2, 3] =
        .done (.single ⟨"s", [1, 2], [.leaf "two" [1, 2], .leaf "last" []]⟩) [] ∧
      (∃ best later, concat "s" [tempting, tempting] [1, 2, 3] = .done (.single best) later ∧
        2 ≤ best.length) ∧
      (concat "s" [lastTwo, lastTwo, lastTwo] [1, 2]).quiet = .done (.single ⟨"s", [1, 2],
        [.leaf "last" [1, 2], .leaf "last" [], .leaf "last" []]⟩) [] := by
  have hp : ∀ rest, tempting rest ≠ .unfinished := by
    intro rest
    rw [tempting]
    split <;> exact nofun
  have hrepetition : repetition "s" (.exactly 2) tempting [1, 2, 3] =
      .done (.single ⟨"s", [1, 2], [.leaf "two" [1, 2], .leaf "last" []]⟩) [] := by
    decide +kernel
  have hconcat : concat "s" (List.replicate 2 tempting) [1, 2, 3] =
      .done (.single ⟨"s", [1, 2, 3], [.leaf "one" [1], .leaf "last" [2, 3]]⟩) [] := by
    decide +kernel
  have hone : AtMostOne lastTwo := by
    rintro rest _ _ ⟨⟩
    exact Nat.le_refl 1
  have hfilled : (repetition "s" (.exactly 3) lastTwo [1, 2]).quiet = .done (.single ⟨"s", [1, 2],
      [.leaf "last" [1, 2], .leaf "last" [], .leaf "last" []]⟩) [] := by
    decide +kernel
  have hends : ∀ rest, lastTwo rest ≠ .unfinished := fun _ => nofun
  refine ⟨hrepetition, ?_, ((copies_against_repetition "s" 3 hends).2 hone).trans hfilled⟩
  refine (copies_against_repetition "s" 2 hp).1 (fun misuse records h => ?_) _ _ hrepetition
  cases hconcat.symm.trans h

end Parser

end Abnf.Tree
