import Abnf.Proofs.Peg
import Abnf.Proofs.Tree.Journal
import Abnf.Tree.Rule

/-!
# Abnf.Proofs.Tree.Greedy — a repetition is the greedy run

`Greedy b p rest count steps ending applications`: after `count` steps, the part is applied to what is
left of the input, over and over, each time behind its best candidate, until there is a reason to end.
There is one such run for every part that comes to an end wherever it is applied, whatever it answers
(`exists_greedy`): a step that goes on is of at least one byte, and fits into what was left.

* `Greedy.getElem?_applications`, `.length_applications_le`: where the part is applied, and how often.
* `Parser.repetition_of_greedy`: the answer of a repetition is read off the run.
* `Journal.repetition_of_greedy`: so is the journal.
-/

namespace Abnf.Tree

/-! ### Best candidates -/

theorem FirstMax.unique {β : Type} {f : β → Nat} {b c : β} {l : List β} (h : FirstMax f b l)
    (h' : FirstMax f c l) : b = c := by
  induction h with
  | head h =>
    cases h' with
    | head => rfl
    | tail hlt hrest =>
      have hle := h c hrest.mem
      omega
  | tail hlt hrest ih =>
    cases h' with
    | head h =>
      have hle := h _ hrest.mem
      omega
    | tail _ hrest' => exact ih hrest'

theorem Candidates.best?_eq_some_iff {c : Candidates} {n : Node} :
    c.best? = some n ↔ FirstMax Node.length n c.nodes := by
  refine ⟨firstMax_of_best?, fun h => ?_⟩
  cases hbest : c.best? with
  | none =>
    have hmem := h.mem
    rw [best?_eq_none_iff.mp hbest] at hmem
    cases hmem
  | some m => rw [(firstMax_of_best? hbest).unique h]

theorem Node.lengthList_append (as bs : List Node) :
    lengthList (as ++ bs) = lengthList as + lengthList bs := by
  induction as with
  | nil => simp [lengthList]
  | cons a as ih => simp [lengthList, ih, Nat.add_assoc]

/-! ### Runs -/

/-- What the part reported. -/
def Application.records (a : Application) : List Record :=
  match a.answer with
  | .done _ records | .failed _ records => records
  | .unfinished => []

/-- Why a greedy run ends. -/
inductive Ending where
  /-- There are as many steps as may be. -/
  | full
  /-- There is no candidate. -/
  | noCandidate
  /-- The best candidate matches nothing. -/
  | nothing (step : Node)
  /-- The part is given up, or its best candidate is too long. -/
  | misuse (misuse : Misuse)

/-- The steps that are taken after `count` others, why there are no more, and the applications that
have found this out. -/
inductive Greedy (b : Bounds) (p : Parser) :
    List UInt8 → Nat → List Node → Ending → List Application → Prop
  | full {rest : List UInt8} {count : Nat} (hfull : b.allowMore count = false) :
    Greedy b p rest count [] .full []
  | noCandidate {rest : List UInt8} {count : Nat} {found : Candidates} {records : List Record}
    (hmore : b.allowMore count = true) (hfound : p rest = .done found records)
    (hnone : found.nodes = []) : Greedy b p rest count [] .noCandidate [.of p rest]
  | nothing {rest : List UInt8} {count : Nat} {found : Candidates} {records : List Record}
    {step : Node} (hmore : b.allowMore count = true) (hfound : p rest = .done found records)
    (hbest : FirstMax Node.length step found.nodes) (hempty : step.length = 0) :
    Greedy b p rest count [] (.nothing step) [.of p rest]
  | failed {rest : List UInt8} {count : Nat} {misuse : Misuse} {records : List Record}
    (hmore : b.allowMore count = true) (hfound : p rest = .failed misuse records) :
    Greedy b p rest count [] (.misuse misuse) [.of p rest]
  | overlong {rest : List UInt8} {count : Nat} {found : Candidates} {records : List Record}
    {step : Node} (hmore : b.allowMore count = true) (hfound : p rest = .done found records)
    (hbest : FirstMax Node.length step found.nodes) (hlong : rest.length < step.length) :
    Greedy b p rest count [] (.misuse (Parser.overlong step rest)) [.of p rest]
  | step {rest : List UInt8} {count : Nat} {found : Candidates} {records : List Record}
    {step : Node} {steps : List Node} {ending : Ending} {applications : List Application}
    (hmore : b.allowMore count = true) (hfound : p rest = .done found records)
    (hbest : FirstMax Node.length step found.nodes) (hne : step.length ≠ 0)
    (hfits : step.length ≤ rest.length)
    (hrest : Greedy b p (rest.drop step.length) (count + 1) steps ending applications) :
    Greedy b p rest count (step :: steps) ending (.of p rest :: applications)

namespace Ending

/-- One node over the steps, with the given children. -/
def node (key : String) (input : List UInt8) (steps children : List Node) : Trial Candidates :=
  .done (.single ⟨key, input.take (Node.lengthList steps), children⟩) []

/-- What becomes of the steps: one node, unless they are too few or the run was given up.  Copies of a
step that matches nothing make up for those that are missing. -/
def answer (key : String) (b : Bounds) (input : List UInt8) (steps : List Node) :
    Ending → Trial Candidates
  | .full => node key input steps steps
  | .noCandidate =>
    if steps.length < b.min then .done .empty [.tooFewSteps key steps.length b.min]
    else node key input steps steps
  | .nothing step =>
    node key input steps (steps ++ List.replicate (b.min - steps.length) step)
  | .misuse m => .fail m

/-- The steps and the copies of the last one, after `count` others. -/
def children (b : Bounds) (count : Nat) (steps : List Node) : Ending → Trial (List Node)
  | .full | .noCandidate => .done steps []
  | .nothing step => .done (steps ++ List.replicate (b.min - (count + steps.length)) step) []
  | .misuse m => .fail m

end Ending

namespace Greedy

variable {b : Bounds} {p : Parser} {rest input : List UInt8} {count : Nat} {steps : List Node}
  {ending : Ending} {applications : List Application} {step : Node}

theorem lengthList_le (h : Greedy b p rest count steps ending applications) :
    Node.lengthList steps ≤ rest.length := by
  induction h with
  | full | noCandidate | nothing | failed | overlong => exact Nat.zero_le _
  | step _ _ _ _ hfits _ ih =>
    rw [List.length_drop] at ih
    rw [Node.lengthList]
    omega

/-- Each step is of at least one byte. -/
theorem length_le (h : Greedy b p rest count steps ending applications) :
    steps.length ≤ Node.lengthList steps := by
  induction h with
  | full | noCandidate | nothing | failed | overlong => exact Nat.zero_le _
  | step _ _ _ hne _ _ ih =>
    rw [Node.lengthList, List.length_cons]
    omega

/-- One application finds each step, and at most one more that there are no others. -/
theorem length_applications_le (h : Greedy b p rest count steps ending applications) :
    applications.length ≤ rest.length + 1 := by
  have hsteps : applications.length ≤ steps.length + 1 := by
    induction h with
    | full => exact Nat.zero_le _
    | noCandidate | nothing | failed | overlong => exact Nat.le_refl _
    | step _ _ _ _ _ _ ih => exact Nat.succ_le_succ ih
  have hle := h.length_le
  have hlength := h.lengthList_le
  omega

theorem getElem?_applications (h : Greedy b p rest count steps ending applications) :
    ∀ (i : Nat) (a : Application), applications[i]? = some a →
      a = .of p (rest.drop (Node.lengthList (steps.take i))) := by
  have hlast : ∀ (rest : List UInt8) (i : Nat) (a : Application),
      [Application.of p rest][i]? = some a → a = .of p rest := by
    intro rest i a ha
    exact List.mem_singleton.mp (List.mem_of_getElem? ha)
  induction h with
  | full => exact fun _ _ ha => nomatch ha
  | noCandidate | nothing | failed | overlong =>
    intro i a ha
    rw [List.take_nil, Node.lengthList, List.drop_zero]
    exact hlast _ i a ha
  | step _ _ _ _ _ _ ih =>
    rintro (_ | i) a ha
    · cases ha
      rw [List.take_zero, Node.lengthList, List.drop_zero]
    · rw [List.take_succ_cons, Node.lengthList, ← List.drop_drop]
      exact ih i a ha

theorem not_allowMore (h : Greedy b p rest count steps .full applications) :
    b.allowMore (count + steps.length) = false := by
  generalize hend : Ending.full = ending at h
  induction h with
  | full hfull => exact hfull
  | noCandidate | nothing | failed | overlong => cases hend
  | step _ _ _ _ _ _ ih =>
    rw [List.length_cons, Nat.add_comm _ 1, ← Nat.add_assoc]
    exact ih hend

theorem length_of_nothing (h : Greedy b p rest count steps (.nothing step) applications) :
    step.length = 0 := by
  generalize hend : Ending.nothing step = ending at h
  induction h with
  | nothing _ _ _ hempty =>
    cases hend
    exact hempty
  | full | noCandidate | failed | overlong => cases hend
  | step _ _ _ _ _ _ ih => exact ih hend

theorem count_le {max : Nat} (h : Greedy b p rest count steps ending applications)
    (hmax : b.max = some max) (hcount : count ≤ max) : count + steps.length ≤ max := by
  induction h with
  | full | noCandidate | nothing | failed | overlong => exact hcount
  | @step _ count _ _ _ _ _ _ hmore _ _ _ _ _ ih =>
    have hlt : count < max := by simpa [Bounds.allowMore, hmax] using hmore
    have hle := ih hlt
    rw [List.length_cons]
    omega

end Greedy

/-- A part that comes to an end on every rest has a greedy run on every input. -/
theorem exists_greedy {b : Bounds} {p : Parser} (hp : ∀ rest, p rest ≠ .unfinished)
    (rest : List UInt8) (count : Nat) :
    ∃ steps ending applications, Greedy b p rest count steps ending applications := by
  induction hk : rest.length using Nat.strongRecOn generalizing rest count with
  | ind k ih =>
    cases hmore : b.allowMore count with
    | false => exact ⟨_, _, _, .full hmore⟩
    | true =>
      cases hfound : p rest with
      | unfinished => exact absurd hfound (hp rest)
      | failed misuse records => exact ⟨_, _, _, .failed hmore hfound⟩
      | done found records =>
        cases hbest : found.best? with
        | none =>
          exact ⟨_, _, _, .noCandidate hmore hfound (Candidates.best?_eq_none_iff.mp hbest)⟩
        | some step =>
          rw [Candidates.best?_eq_some_iff] at hbest
          by_cases hempty : step.length = 0
          · exact ⟨_, _, _, .nothing hmore hfound hbest hempty⟩
          · by_cases hfits : step.length ≤ rest.length
            · have hshorter : (rest.drop step.length).length < k := by
                rw [List.length_drop]
                omega
              obtain ⟨steps, ending, applications, hrest⟩ := ih _ hshorter _ (count + 1) rfl
              exact ⟨_, _, _, .step hmore hfound hbest hempty hfits hrest⟩
            · exact ⟨_, _, _, .overlong hmore hfound hbest (by omega)⟩

namespace Parser

variable {key : String} {b : Bounds} {p : Parser} {rest input : List UInt8} {count : Nat}
  {steps : List Node} {ending : Ending} {applications : List Application} {found : Candidates}

theorem records_of {records : List Record} (h : p rest = .done found records) :
    (Application.of p rest).records = records := by
  simp [Application.records, Application.of, h]

theorem steps_of_greedy (h : Greedy b p rest count steps ending applications) :
    Parser.steps b p rest count =
      (ending.children b count steps).after (applications.flatMap Application.records) := by
  induction h with
  | full hfull =>
    rw [Parser.steps, if_neg (by simp [hfull])]
    rfl
  | noCandidate hmore hfound hnone =>
    rw [Parser.steps, if_pos hmore, hfound, Trial.done_bind, Candidates.best?_eq_none_iff.mpr hnone]
    simp [Ending.children, records_of hfound]
  | nothing hmore hfound hbest hempty =>
    rw [Parser.steps, if_pos hmore, hfound, Trial.done_bind, Candidates.best?_eq_some_iff.mpr hbest]
    simp [Ending.children, records_of hfound, hempty]
  | failed hmore hfound =>
    rw [Parser.steps, if_pos hmore, hfound, Trial.failed_bind]
    simp [Ending.children, Application.records, Application.of, hfound, Trial.fail, Trial.after]
  | overlong hmore hfound hbest hlong =>
    rw [Parser.steps, if_pos hmore, hfound, Trial.done_bind, Candidates.best?_eq_some_iff.mpr hbest]
    have hne : ¬ Node.length _ = 0 := Nat.ne_of_gt (Nat.lt_of_le_of_lt (Nat.zero_le _) hlong)
    simp [Ending.children, records_of hfound, hne, Nat.not_le.mpr hlong]
  | @step _ count _ records step more ending _ hmore hfound hbest hne hfits _ ih =>
    rw [Parser.steps, if_pos hmore, hfound, Trial.done_bind, Candidates.best?_eq_some_iff.mpr hbest]
    simp only [Node.isEmpty_iff, hne, hfits, dif_neg, dif_pos, not_false_eq_true, ih,
      List.flatMap_cons, records_of hfound, ← Trial.after_after]
    have hcount : count + 1 + more.length = count + (more.length + 1) := by omega
    cases ending <;> simp [Ending.children, Trial.after, Trial.fail, hcount]

/-- With all its children found, a repetition answers one node unless they are too few. -/
theorem repetition_of_steps {children : List Node} {records : List Record} (hb : b.inOrder)
    (h : Parser.steps b p input 0 = (Trial.done children []).after records) :
    repetition key b p input =
      (if children.length < b.min then .done .empty [.tooFewSteps key children.length b.min]
        else Ending.node key input children children).after records := by
  have hdone : (Trial.done children []).after records = .done children records := by
    rw [Trial.after, List.append_nil]
  rw [repetition, if_pos hb, h, hdone, Trial.done_bind]
  split <;> rfl

/-- The answer of a repetition is read off the greedy run. -/
theorem repetition_of_greedy (hb : b.inOrder) (h : Greedy b p input 0 steps ending applications) :
    repetition key b p input =
      (ending.answer key b input steps).after (applications.flatMap Application.records) := by
  have hsteps := steps_of_greedy h
  cases ending with
  | full =>
    have hmin := Bounds.min_le_of_not_allowMore hb h.not_allowMore
    have hnot : ¬ steps.length < b.min := by omega
    rw [repetition_of_steps hb hsteps, if_neg hnot, Ending.answer]
  | noCandidate => rw [repetition_of_steps hb hsteps, Ending.answer]
  | nothing step =>
    rw [Ending.children, Nat.zero_add] at hsteps
    have hnot : ¬ (steps ++ List.replicate (b.min - steps.length) step).length < b.min := by
      rw [List.length_append, List.length_replicate]
      omega
    have hlength : Node.lengthList (steps ++ List.replicate (b.min - steps.length) step) =
        Node.lengthList steps := by
      rw [Node.lengthList_append, Node.lengthList_replicate, h.length_of_nothing, Nat.mul_zero,
        Nat.add_zero]
    rw [repetition_of_steps hb hsteps, if_neg hnot, Ending.answer, Ending.node, Ending.node, hlength]
  | misuse m =>
    rw [repetition, if_pos hb, hsteps]
    rfl

end Parser

/-! ### The journal of a run -/

namespace Journal

variable {β γ : Type} {limit : Nat} {key : String} {b : Bounds} {p : Parser}
  {rest input : List UInt8} {count : Nat} {steps : List Node} {ending : Ending}
  {applications : List Application}

theorem applications_bind {j : Journal β} {next : β → Journal γ}
    (h : ∀ value, (next value).applications = []) : (j >>= next).applications = j.applications := by
  cases hj : j.result with
  | none =>
    show (andThen j next).applications = _
    rw [andThen, hj]
  | some t =>
    cases t with
    | done value records => rw [bind_of_done hj, h, List.append_nil]
    | failed misuse records => rw [bind_of_failed hj]
    | unfinished => rw [bind_of_unfinished hj]

theorem applications_call_bind {found : Candidates} {records : List Record}
    (h : p rest = .done found records) (next : Candidates → Journal γ) :
    (call p rest >>= next).applications = .of p rest :: (next found).applications := by
  have hresult : (call p rest).result = some (.done found records) := congrArg some h
  rw [bind_of_done hresult]
  rfl

theorem steps_of_greedy (hlimit : input.length ≤ limit)
    (h : Greedy b p rest count steps ending applications) :
    ∀ consumed, rest = input.drop consumed → consumed ≤ input.length →
      (Journal.steps limit b p input consumed count).applications = applications := by
  induction h with
  | full hfull =>
    intro consumed _ _
    rw [Journal.steps, if_neg (by simp [hfull])]
    rfl
  | noCandidate hmore hfound hnone =>
    rintro consumed rfl hconsumed
    rw [Journal.steps, if_pos hmore, ensure_bind hconsumed, applications_call_bind hfound,
      Candidates.best?_eq_none_iff.mpr hnone]
    rfl
  | nothing hmore hfound hbest hempty =>
    rintro consumed rfl hconsumed
    rw [Journal.steps, if_pos hmore, ensure_bind hconsumed, applications_call_bind hfound,
      Candidates.best?_eq_some_iff.mpr hbest]
    simp only [Node.isEmpty_iff, hempty, dif_pos]
    rfl
  | failed hmore hfound =>
    rintro consumed rfl hconsumed
    have hresult := congrArg some hfound
    rw [Journal.steps, if_pos hmore, ensure_bind hconsumed, bind_of_failed hresult]
    rfl
  | overlong hmore hfound hbest hlong =>
    rintro consumed rfl hconsumed
    have hne : ¬ Node.length _ = 0 := Nat.ne_of_gt (Nat.lt_of_le_of_lt (Nat.zero_le _) hlong)
    rw [Journal.steps, if_pos hmore, ensure_bind hconsumed, applications_call_bind hfound,
      Candidates.best?_eq_some_iff.mpr hbest]
    simp only [Node.isEmpty_iff, hne, Nat.not_le.mpr hlong, dif_neg, not_false_eq_true]
    rfl
  | @step _ count found records step more ending _ hmore hfound hbest hne hfits _ ih =>
    rintro consumed rfl hconsumed
    have hend : consumed + step.length ≤ input.length := by
      rw [List.length_drop] at hfits
      omega
    rw [Journal.steps, if_pos hmore, ensure_bind hconsumed, applications_call_bind hfound,
      Candidates.best?_eq_some_iff.mpr hbest]
    simp only [Node.isEmpty_iff, hne, hfits, dif_neg, dif_pos, not_false_eq_true]
    rw [ensure_bind (Nat.le_trans hend hlimit), applications_bind fun _ => rfl,
      ih _ (List.drop_drop ..) hend]

/-- The parts that a repetition applies are those of the greedy run. -/
theorem repetition_of_greedy (hlimit : input.length ≤ limit) (hb : b.inOrder)
    (h : Greedy b p input 0 steps ending applications) :
    Journal.repetition limit key b p input =
      ⟨applications, some (Parser.repetition key b p input)⟩ := by
  have haccounts : Accounts (fun _ => True) [] (Journal.repetition limit key b p input)
      (Parser.repetition key b p input) := accounts_repetition hlimit fun _ _ => trivial
  have happlied : (Journal.repetition limit key b p input).applications = applications := by
    rw [Journal.repetition, if_pos hb, applications_bind]
    · exact steps_of_greedy hlimit h 0 List.drop_zero.symm (Nat.zero_le _)
    · intro children
      split
      · rfl
      · rw [applications_bind fun _ => rfl, ensure]
        split <;> rfl
  rw [← happlied, ← haccounts.result]

end Journal

/-! ### Repetition -/

namespace Parser

variable {p : Parser} {input : List UInt8} {limit : Nat}

/-- There is no node if the run ended for want of a candidate too early, and else one with as many
children as the bounds allow. -/
theorem nodes_of_greedy {key : String} {b : Bounds} {steps : List Node} {ending : Ending}
    {applications : List Application} {found : Candidates} {earlier records : List Record}
    (hb : b.inOrder) (h : Greedy b p input 0 steps ending applications)
    (hdone : (ending.answer key b input steps).after earlier = .done found records) :
    (found.nodes = [] ↔ ending = .noCandidate ∧ steps.length < b.min) ∧
      ∀ n ∈ found.nodes, b.min ≤ n.children.length ∧
        ∀ max, b.max = some max → n.children.length ≤ max := by
  have hmax : ∀ max, b.max = some max → b.min ≤ max ∧ steps.length ≤ max := by
    intro max hmax
    refine ⟨by simpa [Bounds.inOrder, hmax] using hb, ?_⟩
    simpa using h.count_le hmax (Nat.zero_le _)
  have hone : ∀ children, b.min ≤ children.length →
      (∀ max, b.max = some max → children.length ≤ max) →
      ¬ (ending = .noCandidate ∧ steps.length < b.min) →
      (Ending.node key input steps children).after earlier = .done found records →
      (found.nodes = [] ↔ ending = .noCandidate ∧ steps.length < b.min) ∧
        ∀ n ∈ found.nodes, b.min ≤ n.children.length ∧
          ∀ max, b.max = some max → n.children.length ≤ max := by
    rintro children hleast hmost hending ⟨⟩
    refine ⟨⟨fun h => absurd h (List.cons_ne_nil _ _), fun h => absurd h hending⟩, fun n hn => ?_⟩
    obtain rfl := List.mem_singleton.mp hn
    exact ⟨hleast, hmost⟩
  cases ending with
  | full =>
    have hmin := Bounds.min_le_of_not_allowMore hb h.not_allowMore
    exact hone steps (by omega) (fun max hm => (hmax max hm).2) (by simp) hdone
  | noCandidate =>
    rw [Ending.answer] at hdone
    split at hdone
    · rename_i hfew
      cases hdone
      exact ⟨⟨fun _ => ⟨rfl, hfew⟩, fun _ => rfl⟩, fun n hn => absurd hn List.not_mem_nil⟩
    · rename_i hmin
      exact hone steps (by omega) (fun max hm => (hmax max hm).2) (fun h => hmin h.2) hdone
  | nothing step =>
    have hlength : (steps ++ List.replicate (b.min - steps.length) step).length =
        max steps.length b.min := by
      rw [List.length_append, List.length_replicate]
      omega
    refine hone _ (by omega) (fun max hm => ?_) (by simp) hdone
    have hle := hmax max hm
    omega
  | misuse m => cases hdone

/-- A part that is applied once, and whose candidates fit, makes an option of one node. -/
theorem optional_of_done (key : String) {found : Candidates} {records : List Record}
    (h : p input = .done found records) (hfits : ∀ n ∈ found.nodes, n.length ≤ input.length) :
    ∃ n later, repetition key (.atMost 1) p input = .done (.single n) later := by
  have hmore : (Bounds.atMost 1).allowMore 0 = true := rfl
  have hnode : ∀ {steps ending applications},
      Greedy (.atMost 1) p input 0 steps ending applications → (∀ m, ending ≠ .misuse m) →
      ∃ n later, repetition key (.atMost 1) p input = .done (.single n) later := by
    intro steps ending applications hrun hending
    rw [repetition_of_greedy rfl hrun]
    cases ending with
    | full => exact ⟨_, _, rfl⟩
    | noCandidate => exact ⟨_, _, rfl⟩
    | nothing step => exact ⟨_, _, rfl⟩
    | misuse m => exact absurd rfl (hending m)
  cases hbest : found.best? with
  | none => exact hnode (.noCandidate hmore h (Candidates.best?_eq_none_iff.mp hbest)) (by simp)
  | some step =>
    rw [Candidates.best?_eq_some_iff] at hbest
    by_cases hempty : step.length = 0
    · exact hnode (.nothing hmore h hbest hempty) (by simp)
    · exact hnode (.step hmore h hbest hempty (hfits step hbest.mem) (.full rfl)) (by simp)

/-- **A repetition is the greedy run, and it ends.**  The part is any function that comes to an end.
It is applied at most once more than the input has bytes, each time to what the steps before leave of
it, and the answer is read off the run: no candidates if that ended for want of one with too few steps
taken, else one node with as many children as the bounds allow.  Bounds out of order are never met, and
the part is not applied at all.  An option answers one node whenever its rule answers, unless with a
candidate that is too long. -/
theorem repetition_greedy (key : String) (b : Bounds) (hp : ∀ rest, p rest ≠ .unfinished)
    (hlimit : input.length ≤ limit) :
    (b.inOrder = false →
        Journal.repetition limit key b p input = ⟨[], some (.done .empty [])⟩ ∧
          repetition key b p input = .done .empty []) ∧
      (b.inOrder = true → ∃ steps ending applications,
        Greedy b p input 0 steps ending applications ∧
          Journal.repetition limit key b p input = ⟨applications, some (repetition key b p input)⟩ ∧
          applications.length ≤ input.length + 1 ∧
          (∀ (i : Nat) (a : Application), applications[i]? = some a →
            a = .of p (input.drop (Node.lengthList (steps.take i)))) ∧
          repetition key b p input =
            (ending.answer key b input steps).after (applications.flatMap Application.records) ∧
          ∀ found records, repetition key b p input = .done found records →
            (found.nodes = [] ↔ ending = .noCandidate ∧ steps.length < b.min) ∧
            ∀ n ∈ found.nodes, b.min ≤ n.children.length ∧
              ∀ max, b.max = some max → n.children.length ≤ max) ∧
      ∀ (g : Grammar Rule) (fuel : Nat) (rule : Rule) (found : Candidates) (records : List Record),
        rule.apply g fuel input = .done found records →
        (∀ n ∈ found.nodes, n.length ≤ input.length) →
        ∃ n later, (Rule.optional key rule).apply g (fuel + 1) input = .done (.single n) later := by
  refine ⟨fun hb => ?_, fun hb => ?_, fun g fuel rule found records h hfits => ?_⟩
  · have hnot : ¬ b.inOrder = true := by simp [hb]
    rw [Journal.repetition, repetition, if_neg hnot, if_neg hnot]
    exact ⟨rfl, rfl⟩
  · obtain ⟨steps, ending, applications, h⟩ := exists_greedy (b := b) hp input 0
    have hanswer : repetition key b p input = _ := repetition_of_greedy hb h
    refine ⟨steps, ending, applications, h, Journal.repetition_of_greedy hlimit hb h,
      h.length_applications_le, h.getElem?_applications, hanswer, fun found records hdone => ?_⟩
    exact nodes_of_greedy hb h (hanswer.symm.trans hdone)
  · exact optional_of_done key h hfits

/-- A part that takes two bytes, or what there is: it takes two steps, finds nothing behind them, and
that is repeated for the two steps that are missing. -/
theorem repetition_greedy_of_take :
    (Journal.repetition 3 "run" ⟨4, some 5⟩ ((Rule.take "two" 2).apply .empty 1)
        [1, 2, 3]).applications.length ≤ 4 ∧
      repetition "run" ⟨4, some 5⟩ ((Rule.take "two" 2).apply .empty 1) [1, 2, 3] =
        .done (.single ⟨"run", [1, 2, 3],
          [.leaf "two" [1, 2], .leaf "two" [3], .leaf "two" [], .leaf "two" []]⟩) [] ∧
      ∃ n later, (Rule.optional "one" (.take "two" 2)).apply .empty 2 [1, 2, 3] =
        .done (.single n) later := by
  have hp : ∀ rest, (Rule.take "two" 2).apply .empty 1 rest ≠ .unfinished := fun _ => nofun
  have hlimit : ([1, 2, 3] : List UInt8).length ≤ 3 := by decide
  obtain ⟨-, hrun, -⟩ := repetition_greedy "run" ⟨4, some 5⟩ hp hlimit
  obtain ⟨_, _, applications, -, hjournal, hlength, -⟩ := hrun rfl
  refine ⟨?_, by decide +kernel, ?_⟩
  · rw [hjournal]
    exact hlength
  · obtain ⟨-, -, hoption⟩ := repetition_greedy "one" (.atMost 1) hp hlimit
    refine hoption .empty 1 (.take "two" 2) _ _ rfl fun n hn => ?_
    obtain rfl := List.mem_singleton.mp hn
    decide

/-- The rule answers on every input, but with a byte more than there is at the end: an option of it
fails there. -/
theorem optional_of_overlong :
    (∀ rest, (Rule.fixed [.leaf "a" [120]]).apply .empty 1 rest = .done ⟨[.leaf "a" [120]]⟩ []) ∧
      ¬ ∃ n later, (Rule.optional "K" (.fixed [.leaf "a" [120]])).apply .empty 2 [] =
        .done (.single n) later := by
  refine ⟨fun _ => rfl, ?_⟩
  have hfailed : (Rule.optional "K" (.fixed [.leaf "a" [120]])).apply .empty 2 [] =
      .failed (.overlongNode "a" 1 0) [] := by
    decide +kernel
  rintro ⟨n, later, h⟩
  cases hfailed.symm.trans h

end Parser

end Abnf.Tree
