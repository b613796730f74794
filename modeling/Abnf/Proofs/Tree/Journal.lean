import Abnf.Proofs.Tree.Parts

/-!
# Abnf.Proofs.Tree.Journal — concatenation and repetition with nothing taken for granted

The combinators a second time, in a setting that writes down every part they apply, and what it
answers.  Offsets are carried along as numbers, no greater than `limit`, and nothing comes of it when
one of them would exceed the limit, or a slice of the input its length.  `Journal.Accounts` relates
such a computation to the one that runs: both come to the same, the parts applied are known, and
whatever goes wrong is due to one of them.
-/

namespace Abnf.Tree

/-- A part applied to what was left of the input, and what it answered. -/
structure Application where
  rest : List UInt8
  answer : Trial Candidates

namespace Application

/-- The application of a part. -/
def of (p : Parser) (rest : List UInt8) : Application := ⟨rest, p rest⟩

/-- No candidate is longer than the input it was found in. -/
def Fits (a : Application) : Prop :=
  ∀ found records, a.answer = .done found records → ∀ n ∈ found.nodes, n.length ≤ a.rest.length

/-- The misuse is that of the part itself, or that one of its candidates is too long. -/
def Causes (a : Application) (misuse : Misuse) : Prop :=
  (∃ records, a.answer = .failed misuse records) ∨
    ∃ found records, a.answer = .done found records ∧ ∃ n ∈ found.nodes,
      a.rest.length < n.length ∧ misuse = .overlongNode n.key n.length a.rest.length

end Application

/-- A computation with the parts it applied.  There is no result if it reached beyond the input, or
an offset beyond the limit. -/
structure Journal (β : Type) where
  applications : List Application
  result : Option (Trial β)

namespace Journal

variable {β γ : Type}

/-- A computation that applies no part. -/
def lift (t : Trial β) : Journal β := ⟨[], some t⟩

/-- Goes on with the value, if there is one. -/
def andThen (j : Journal β) (next : β → Journal γ) : Journal γ :=
  match j.result with
  | none => ⟨j.applications, none⟩
  | some (.done value records) =>
    ⟨j.applications ++ (next value).applications, (next value).result.map (Trial.after records)⟩
  | some (.failed misuse records) => ⟨j.applications, some (.failed misuse records)⟩
  | some .unfinished => ⟨j.applications, some .unfinished⟩

instance : Monad Journal where
  pure value := lift (pure value)
  bind := andThen

/-- Applies a part. -/
def call (p : Parser) (rest : List UInt8) : Journal Candidates := ⟨[.of p rest], some (p rest)⟩

/-- Goes no further unless the condition holds. -/
def ensure (condition : Prop) [Decidable condition] : Journal Unit :=
  if condition then pure () else ⟨[], none⟩

theorem bind_of_done {j : Journal β} {value : β} {records : List Record}
    (h : j.result = some (.done value records)) (next : β → Journal γ) :
    j >>= next =
      ⟨j.applications ++ (next value).applications, (next value).result.map (Trial.after records)⟩ := by
  show andThen j next = _
  rw [andThen, h]

theorem bind_of_failed {j : Journal β} {misuse : Misuse} {records : List Record}
    (h : j.result = some (.failed misuse records)) (next : β → Journal γ) :
    j >>= next = ⟨j.applications, some (.failed misuse records)⟩ := by
  show andThen j next = _
  rw [andThen, h]

theorem bind_of_unfinished {j : Journal β} (h : j.result = some .unfinished)
    (next : β → Journal γ) : j >>= next = ⟨j.applications, some .unfinished⟩ := by
  show andThen j next = _
  rw [andThen, h]

theorem ensure_bind {condition : Prop} [Decidable condition] (h : condition)
    (next : Unit → Journal γ) : (ensure condition >>= next) = next () := by
  have hresult : (ensure condition).result = some (.done () []) := by
    rw [ensure, if_pos h]
    rfl
  have hnone : (ensure condition).applications = [] := by
    rw [ensure, if_pos h]
    rfl
  rw [bind_of_done hresult, hnone]
  cases next () with
  | mk applications result => cases result <;> simp

/-! ### The combinators -/

/-- The nodes that `extend` makes of the candidates, in order. -/
def collect (extend : Node → Journal (Option Node)) : List Node → Journal (List Node)
  | [] => pure []
  | n :: rest => do
    let extended ← extend n
    let others ← collect extend rest
    pure (extended.toList ++ others)

variable (limit : Nat) (key : String) (b : Bounds) (p : Parser)

/-- The best match of the parts one after another from `offset` on. -/
def extend (input : List UInt8) : List Parser → Nat → Journal (Option Node)
  | [], offset => do
    ensure (offset ≤ input.length)
    pure (some (.leaf key (input.take offset)))
  | first :: rest, offset => do
    ensure (offset ≤ input.length)
    let found ← call first (input.drop offset)
    let extended ← collect (fun n => do
      lift (Parser.checkFits n (input.drop offset))
      ensure (offset + n.length ≤ limit)
      let tail ← extend input rest (offset + n.length)
      pure (tail.map fun t => { t with children := n :: t.children })) found.nodes
    pure (Candidates.mk extended).best?

/-- The parts one after another: of all combinations of their candidates, the best. -/
def concat (parts : List Parser) (input : List UInt8) : Journal Candidates := do
  pure (.ofOption (← extend limit key input parts 0))

/-- The steps of a repetition after `count` others, and the offset at which the last one ends, if
those before end at `consumed`. -/
def steps (input : List UInt8) (consumed count : Nat) : Journal (List Node × Nat) :=
  if b.allowMore count then do
    ensure (consumed ≤ input.length)
    let found ← call p (input.drop consumed)
    match found.best? with
    | none => pure ([], consumed)
    | some step =>
      if hne : step.isEmpty then pure (List.replicate (b.min - count) step, consumed)
      else if hle : step.length ≤ (input.drop consumed).length then do
        ensure (consumed + step.length ≤ limit)
        let more ← steps input (consumed + step.length) (count + 1)
        pure (step :: more.1, more.2)
      else lift (.fail (Parser.overlong step (input.drop consumed)))
  else pure ([], consumed)
termination_by input.length - consumed
decreasing_by
  simp only [Node.isEmpty_iff] at hne
  rw [List.length_drop] at hle
  omega

/-- The part as often as it can within the bounds. -/
def repetition (input : List UInt8) : Journal Candidates :=
  if b.inOrder then do
    let children ← steps limit b p input 0 0
    if children.1.length < b.min then do
      lift (.report (.tooFewSteps key children.1.length b.min))
      pure .empty
    else do
      ensure (children.2 ≤ input.length)
      pure (.single ⟨key, input.take children.2, children.1⟩)
  else pure .empty

/-! ### What a journal accounts for -/

/-- Both come to the same, and what is applied is known.  If there is a value, no candidate was too
long; a misuse, or that there is no end, is due to an application, if not here then in the past. -/
structure Accounts (Known : Application → Prop) (past : List Application) (j : Journal β)
    (t : Trial β) : Prop where
  result : j.result = some t
  known : ∀ a ∈ j.applications, Known a
  fits : ∀ value records, t = .done value records → ∀ a ∈ j.applications, a.Fits
  cause : ∀ misuse records, t = .failed misuse records →
    ∃ a ∈ past ++ j.applications, a.Causes misuse
  ends : t = .unfinished → ∃ a ∈ past ++ j.applications, a.answer = .unfinished

namespace Accounts

variable {Known : Application → Prop} {past : List Application} {j : Journal β} {t : Trial β}
  {next : β → Journal γ} {f : β → Trial γ}

theorem lift (hfail : ∀ misuse records, t = .failed misuse records → ∃ a ∈ past, a.Causes misuse)
    (hend : t ≠ .unfinished) : Accounts Known past (Journal.lift t) t where
  result := rfl
  known := nofun
  fits _ _ _ := nofun
  cause misuse records h := by
    obtain ⟨a, ha, hcause⟩ := hfail misuse records h
    exact ⟨a, List.mem_append_left _ ha, hcause⟩
  ends h := absurd h hend

theorem pure (value : β) : Accounts Known past (Pure.pure value) (Pure.pure value) :=
  lift nofun nofun

theorem report (record : Record) :
    Accounts Known past (Journal.lift (.report record)) (.report record) :=
  lift nofun nofun

theorem fail {misuse : Misuse} {a : Application} (ha : a ∈ past) (h : a.Causes misuse) :
    Accounts Known past (Journal.lift (.fail misuse)) (.fail misuse : Trial β) := by
  refine lift (fun misuse' records heq => ?_) nofun
  cases heq
  exact ⟨a, ha, h⟩

theorem mono {past' : List Application} (h : Accounts Known past j t) (hpast : past ⊆ past') :
    Accounts Known past' j t := by
  have hsubset : past ++ j.applications ⊆ past' ++ j.applications :=
    List.append_subset.mpr
      ⟨List.Subset.trans hpast (List.subset_append_left _ _), List.subset_append_right _ _⟩
  refine ⟨h.result, h.known, h.fits, fun misuse records heq => ?_, fun heq => ?_⟩
  · obtain ⟨a, ha, hcause⟩ := h.cause misuse records heq
    exact ⟨a, hsubset ha, hcause⟩
  · obtain ⟨a, ha, hanswer⟩ := h.ends heq
    exact ⟨a, hsubset ha, hanswer⟩

/-- What was applied right before becomes part of the journal, once its candidates are known to fit
if a value comes of it. -/
theorem behind {applied : List Application} (h : Accounts Known (past ++ applied) j t)
    (hknown : ∀ a ∈ applied, Known a)
    (hfits : ∀ value records, t = .done value records → ∀ a ∈ applied, a.Fits)
    (records : List Record) :
    Accounts Known past ⟨applied ++ j.applications, j.result.map (Trial.after records)⟩
      (t.after records) where
  result := by rw [h.result, Option.map_some]
  known a ha := (List.mem_append.mp ha).elim (hknown a) (h.known a)
  fits value later heq a ha := by
    cases t with
    | done first earlier =>
      exact (List.mem_append.mp ha).elim (hfits _ _ rfl a) (h.fits _ _ rfl a)
    | failed => cases heq
    | unfinished => cases heq
  cause misuse later heq := by
    rw [← List.append_assoc]
    cases t with
    | done => cases heq
    | failed misuse earlier =>
      cases heq
      exact h.cause misuse earlier rfl
    | unfinished => cases heq
  ends heq := by
    rw [← List.append_assoc]
    cases t with
    | done => cases heq
    | failed => cases heq
    | unfinished => exact h.ends rfl

/-- The journal may carry along what the trial need not know, as long as its value is a function `e`
of that of the trial. -/
theorem bind_map {δ : Type} {e : δ → β} {u : Trial δ} {f : δ → Trial γ}
    (h : Accounts Known past j (u >>= fun d => Pure.pure (e d)))
    (hnext : ∀ d records, u = .done d records → Accounts Known past (next (e d)) (f d)) :
    Accounts Known past (j >>= next) (u >>= f) := by
  cases u with
  | done d records =>
    have hresult : j.result = some (.done (e d) records) := by simpa [Trial.after] using h.result
    rw [bind_of_done hresult, Trial.done_bind]
    refine ((hnext d records rfl).mono (List.subset_append_left _ _)).behind h.known ?_ records
    exact fun _ _ _ => h.fits _ _ rfl
  | failed misuse records =>
    rw [bind_of_failed h.result, Trial.failed_bind]
    exact ⟨rfl, h.known, nofun, fun _ _ heq => by cases heq; exact h.cause _ _ rfl, nofun⟩
  | unfinished =>
    rw [bind_of_unfinished h.result, Trial.unfinished_bind]
    exact ⟨rfl, h.known, nofun, nofun, fun _ => h.ends rfl⟩

theorem bind (h : Accounts Known past j t)
    (hnext : ∀ value records, t = .done value records →
      Accounts Known past (next value) (f value)) : Accounts Known past (j >>= next) (t >>= f) :=
  bind_map (e := id) (by simpa only [id, bind_pure] using h) hnext

/-- To go on after an application, it is enough to account for what follows with the application in
the past, as long as a candidate that is too long is found out behind it. -/
theorem call_bind {p : Parser} {rest : List UInt8} {next : Candidates → Journal γ}
    {f : Candidates → Trial γ} (hknown : Known (.of p rest))
    (hnext : ∀ found records, p rest = .done found records →
      Accounts Known (past ++ [.of p rest]) (next found) (f found))
    (hfits : ∀ value records, p rest >>= f = .done value records → (Application.of p rest).Fits) :
    Accounts Known past (call p rest >>= next) (p rest >>= f) := by
  have hknown' : ∀ a ∈ (call p rest).applications, Known a := by
    intro a ha
    obtain rfl := List.mem_singleton.mp ha
    exact hknown
  cases hp : p rest with
  | done found records =>
    have hresult : (call p rest).result = some (.done found records) := congrArg some hp
    rw [bind_of_done hresult, Trial.done_bind]
    refine (hnext found records hp).behind hknown' (fun value later heq a ha => ?_) records
    obtain rfl := List.mem_singleton.mp ha
    refine hfits value (records ++ later) ?_
    rw [hp, Trial.done_bind, heq, Trial.after]
  | failed misuse records =>
    have hresult : (call p rest).result = some (.failed misuse records) := congrArg some hp
    rw [bind_of_failed hresult, Trial.failed_bind]
    refine ⟨rfl, hknown', nofun, fun _ _ heq => ?_, nofun⟩
    cases heq
    exact ⟨_, List.mem_append_right _ (List.mem_singleton_self _), .inl ⟨records, hp⟩⟩
  | unfinished =>
    have hresult : (call p rest).result = some .unfinished := congrArg some hp
    rw [bind_of_unfinished hresult, Trial.unfinished_bind]
    exact ⟨rfl, hknown', nofun, nofun,
      fun _ => ⟨_, List.mem_append_right _ (List.mem_singleton_self _), hp⟩⟩

end Accounts

end Journal

/-! ### Candidates that are too long are found out -/

namespace Parser

variable {key : String} {b : Bounds} {p : Parser} {input rest : List UInt8} {others : List Parser}
  {records : List Record}

theorem length_le_of_checkFits {n : Node} {u : Unit} (h : checkFits n rest = .done u records) :
    n.length ≤ rest.length := by
  unfold checkFits at h
  split at h
  · assumption
  · cases h

theorem done_of_collect {f : Node → Trial (Option Node)} {nodes : List Node} :
    ∀ {value : List Node} {records : List Record},
      collect f nodes = .done value records → ∀ n ∈ nodes, ∃ best? later, f n = .done best? later := by
  induction nodes with
  | nil => simp
  | cons n others ih =>
    intro value records h
    obtain ⟨best?, first, _, hn, h⟩ := Trial.done_of_bind h
    obtain ⟨_, _, _, hothers, -⟩ := Trial.done_of_bind h
    rintro m (_ | ⟨_, hm⟩)
    · exact ⟨best?, first, hn⟩
    · exact ih hothers m hm

/-- A concatenation checks each candidate before it goes on from there. -/
theorem fits_of_extend {offset : Nat} {best? : Option Node}
    (h : extend key input (p :: others) offset = .done best? records) :
    (Application.of p (input.drop offset)).Fits := by
  intro found later hfound n hn
  obtain ⟨found', _, _, hfound', h⟩ := Trial.done_of_bind h
  cases hfound.symm.trans hfound'
  obtain ⟨_, _, _, hcollect, -⟩ := Trial.done_of_bind h
  obtain ⟨_, _, hn⟩ := done_of_collect hcollect n hn
  obtain ⟨_, _, _, hcheck, -⟩ := Trial.done_of_bind hn
  exact length_le_of_checkFits hcheck

/-- A repetition checks the best candidate, and no other is longer. -/
theorem fits_of_steps {count : Nat} {children : List Node} (hmore : b.allowMore count)
    (h : steps b p rest count = .done children records) : (Application.of p rest).Fits := by
  intro found later hfound n hn
  rcases steps_cases h with ⟨-, hfull | ⟨found', _, hfound', hnone⟩⟩ |
    ⟨-, found', _, step, hfound', hbest, hstep⟩
  · exact absurd hmore (Bool.not_eq_true _ ▸ hfull)
  · cases hfound.symm.trans hfound'
    rw [Candidates.best?_eq_none_iff.mp hnone] at hn
    cases hn
  · cases hfound.symm.trans hfound'
    refine Nat.le_trans ((Candidates.firstMax_of_best? hbest).le n hn) ?_
    rcases hstep with ⟨hempty, -⟩ | ⟨-, hfits, -⟩
    · rw [hempty]
      exact Nat.zero_le _
    · exact hfits

end Parser

namespace Journal

/-! ### The journals of the combinators -/

theorem accounts_collect {Known : Application → Prop} {past : List Application}
    {next : Node → Journal (Option Node)} {f : Node → Trial (Option Node)} {nodes : List Node}
    (h : ∀ n ∈ nodes, Accounts Known past (next n) (f n)) :
    Accounts Known past (collect next nodes) (Parser.collect f nodes) := by
  induction nodes with
  | nil => exact .pure []
  | cons n rest ih =>
    refine (h n List.mem_cons_self).bind fun extended _ _ => ?_
    refine (ih fun m hm => h m (List.mem_cons_of_mem _ hm)).bind fun others _ _ => ?_
    exact .pure _

section

variable {Known : Application → Prop} {limit : Nat} {key : String} {b : Bounds} {p : Parser}
  {input : List UInt8} {parts : List Parser}

theorem accounts_checkFits {past : List Application} {found : Candidates} {records : List Record}
    {rest : List UInt8} {n : Node} (hp : p rest = .done found records) (hn : n ∈ found.nodes) :
    Accounts Known (past ++ [.of p rest]) (lift (Parser.checkFits n rest))
      (Parser.checkFits n rest) := by
  unfold Parser.checkFits
  split
  · exact .pure ()
  · rename_i hlong
    refine .fail (List.mem_append_right _ (List.mem_singleton_self _)) (.inr ?_)
    exact ⟨found, records, hp, n, hn, Nat.lt_of_not_le hlong, rfl⟩

/-- Each part is applied to a rest of the input. -/
theorem accounts_extend (hlimit : input.length ≤ limit)
    (hknown : ∀ p ∈ parts, ∀ offset, offset ≤ input.length → Known (.of p (input.drop offset))) :
    ∀ offset, offset ≤ input.length →
      Accounts Known [] (extend limit key input parts offset) (Parser.extend key input parts offset) := by
  induction parts with
  | nil =>
    intro offset hoffset
    rw [extend, ensure_bind hoffset]
    exact .pure _
  | cons first others ih =>
    intro offset hoffset
    have hothers := ih fun p hp => hknown p (List.mem_cons_of_mem _ hp)
    rw [extend, ensure_bind hoffset]
    refine Accounts.call_bind (hknown first List.mem_cons_self offset hoffset)
      (fun found records hfound => ?_) (fun _ _ h => Parser.fits_of_extend h)
    refine (accounts_collect fun n hn => ?_).bind fun _ _ _ => .pure _
    refine (accounts_checkFits hfound hn).bind fun _ _ hcheck => ?_
    have hend : offset + n.length ≤ input.length := by
      have hle := Parser.length_le_of_checkFits hcheck
      rw [List.length_drop] at hle
      omega
    rw [ensure_bind (Nat.le_trans hend hlimit)]
    exact ((hothers _ hend).mono (List.nil_subset _)).bind fun _ _ _ => .pure _

theorem accounts_concat (hlimit : input.length ≤ limit)
    (hknown : ∀ p ∈ parts, ∀ offset, offset ≤ input.length → Known (.of p (input.drop offset))) :
    Accounts Known [] (concat limit key parts input) (Parser.concat key parts input) :=
  (accounts_extend hlimit hknown 0 (Nat.zero_le _)).bind fun _ _ _ => .pure _

/-- The part is applied to what the steps before leave of the input, and the offset carried along is
where they end. -/
theorem accounts_steps (hlimit : input.length ≤ limit)
    (hknown : ∀ offset, offset ≤ input.length → Known (.of p (input.drop offset)))
    (consumed count : Nat) (hconsumed : consumed ≤ input.length) :
    Accounts Known [] (steps limit b p input consumed count)
      (Parser.steps b p (input.drop consumed) count >>= fun children =>
        pure (children, consumed + Node.lengthList children)) := by
  fun_induction steps limit b p input consumed count with
  | case1 consumed count hmore ih =>
    have hsteps := Parser.steps.eq_def b p (input.drop consumed) count
    rw [if_pos hmore] at hsteps
    rw [hsteps, ensure_bind hconsumed, bind_assoc]
    refine Accounts.call_bind (hknown consumed hconsumed) (fun found records hfound => ?_)
      (fun _ _ hdone => ?_)
    · cases hbest : found.best? with
      | none => exact .pure _
      | some step =>
        dsimp only
        split
        · rename_i hempty
          rw [Node.isEmpty_iff] at hempty
          rw [pure_bind, Node.lengthList_replicate, hempty, Nat.mul_zero]
          exact .pure _
        · split
          · rename_i hne hle
            have hend : consumed + step.length ≤ input.length := by
              rw [List.length_drop] at hle
              omega
            rw [ensure_bind (Nat.le_trans hend hlimit), bind_assoc]
            simp only [pure_bind, List.drop_drop]
            refine ((ih step hne hle hend).mono (List.nil_subset _)).bind_map fun more _ _ => ?_
            rw [Node.lengthList, ← Nat.add_assoc]
            exact .pure _
          · rename_i hne hle
            refine .fail (List.mem_append_right _ (List.mem_singleton_self _)) (.inr ?_)
            exact ⟨found, records, hfound, step, Parser.mem_nodes_of_best? hbest,
              Nat.lt_of_not_le hle, rfl⟩
    · rw [← bind_assoc, ← hsteps] at hdone
      obtain ⟨_, _, _, hdone, -⟩ := Trial.done_of_bind hdone
      exact Parser.fits_of_steps hmore hdone
  | case2 consumed count hmore =>
    rw [Parser.steps, if_neg hmore]
    exact .pure _

theorem accounts_repetition (hlimit : input.length ≤ limit)
    (hknown : ∀ offset, offset ≤ input.length → Known (.of p (input.drop offset))) :
    Accounts Known [] (repetition limit key b p input) (Parser.repetition key b p input) := by
  unfold repetition Parser.repetition
  split
  · have hsteps := accounts_steps (b := b) hlimit hknown 0 0 (Nat.zero_le _)
    rw [List.drop_zero] at hsteps
    refine hsteps.bind_map fun children _ hdone => ?_
    dsimp only
    split
    · exact (Accounts.report _).bind fun _ _ _ => .pure _
    · have hend : 0 + Node.lengthList children ≤ input.length := by
        rw [Nat.zero_add]
        exact (Parser.combination_of_steps hdone).lengthList_le
      rw [ensure_bind hend, Nat.zero_add]
      exact .pure _
  · exact .pure _

end

end Journal

end Abnf.Tree
