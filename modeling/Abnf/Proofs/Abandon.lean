import Abnf.Proofs.Strict

/-!
# Abnf.Proofs.Abandon — what an application that fails leaves behind

An application that meets an undefined nonterminal is given up at once, with all applications that
wait for it, and the marks that these have set are left.  `Rule.MeetsUndefined` says which applications
wait when the nonterminal is met, `Frame.leaked` where those among them that set a mark began.  As the
first of these marks, if there is any, is where the whole application began, going back to all of them
undoes it.

* `Script.FailsAt`: the application that a failed run failed in, one lemma a combinator.
* `Rule.left_of_failed`: the induction, over fuel.
* `Rule.abandoned_recoverable`: what is left, and that it can be undone.
-/

namespace Abnf

variable {ρ α : Type}

open Scanner

/-! ### Marks left behind -/

namespace Scanner

variable {s t u : Scanner α} {left : List Nat}

/-- Goes back to so many marks, one after another. -/
def rollbacks : Nat → Scanner α → Except Misuse (Scanner α)
  | 0, s => .ok s
  | n + 1, s =>
    match s.rollback with
    | (.ok (), t) => t.rollbacks n
    | (.error misuse, _) => .error misuse

/-- `t` has the marks of `s` and behind them those in `left`, in this order.  If there are none, it is
where `s` is, and else the first of them is there. -/
structure Leaves (s : Scanner α) (left : List Nat) (t : Scanner α) : Prop where
  marks : t.marks = left.reverse ++ s.marks
  position : left = [] → t.position = s.position
  first : ∀ mark, left.head? = some mark → mark = s.position

/-- What was left from the same place with the same marks. -/
theorem Leaves.of_same (h : Leaves u left t) (hm : u.marks = s.marks) (hp : u.position = s.position) :
    Leaves s left t :=
  ⟨hm ▸ h.marks, fun hnil => (h.position hnil).trans hp, fun mark hmark => (h.first mark hmark).trans hp⟩

/-- What was left with one more mark, which is then left as well. -/
theorem Leaves.of_mark (h : Leaves u left t) (hm : u.marks = s.position :: s.marks) :
    Leaves s (s.position :: left) t := by
  refine ⟨?_, by simp, by simp⟩
  rw [h.marks, hm]
  simp

theorem rollbacks_of_marks {marks : List Nat} : ∀ (above : List Nat) (t : Scanner α),
    t.marks = above ++ marks → ∃ v, t.rollbacks above.length = .ok v ∧ v.marks = marks ∧
      v.position = above.getLast?.getD t.position
  | [], t, h => ⟨t, rfl, h, rfl⟩
  | mark :: above, t, h => by
    have hcons : t.marks = mark :: (above ++ marks) := h
    have hback := rollback_of_marks hcons
    obtain ⟨v, hv, hmarks, hposition⟩ := rollbacks_of_marks above t.rollback.2 (by rw [hback])
    refine ⟨v, ?_, hmarks, ?_⟩
    · simp only [rollbacks, List.length_cons, hback] at hv ⊢
      exact hv
    · rw [hposition, hback, List.getLast?_cons]
      rfl

/-- Going back to all the marks that were left restores the position and the marks. -/
theorem Leaves.rollbacks (h : Leaves s left t) :
    ∃ v, t.rollbacks left.length = .ok v ∧ v.position = s.position ∧ v.marks = s.marks := by
  obtain ⟨v, hv, hmarks, hposition⟩ := rollbacks_of_marks left.reverse t h.marks
  rw [List.length_reverse] at hv
  refine ⟨v, hv, ?_, hmarks⟩
  rw [hposition, List.getLast?_reverse]
  cases left with
  | nil => exact h.position rfl
  | cons mark rest => exact h.first mark rfl

end Scanner

/-! ### Where a run fails -/

namespace Script

variable {applyRule : ρ → Scanner α → Option (Outcome × Scanner α)} {E : Misuse → Prop}
  {Q : Scanner α → Prop} {s t u : Scanner α} {m : Misuse}

/-- An application that the run makes, to a scanner that satisfies `Q`, fails with `m` and leaves
`t`. -/
def FailsAt (applyRule : ρ → Scanner α → Option (Outcome × Scanner α)) (Q : Scanner α → Prop)
    (c : Script ρ α) (s : Scanner α) (m : Misuse) (t : Scanner α) : Prop :=
  ∃ r u next, (r, u, next) ∈ c.calls applyRule s ∧ applyRule r u = some (.failed m, t) ∧ Q u

theorem failsAt_attempt {rule : ρ} {onMatch : Span → Script ρ α} {onNoMatch : Script ρ α} (hQ : Q s)
    (h : (attempt rule onMatch onNoMatch).run applyRule s = some (.failed m, t))
    (hmatch : ∀ span v, applyRule rule s = some (.matched span, v) →
      (onMatch span).run applyRule v = some (.failed m, t) → FailsAt applyRule Q (onMatch span) v m t)
    (hnoMatch : ∀ v, applyRule rule s = some (.noMatch, v) →
      onNoMatch.run applyRule v = some (.failed m, t) → FailsAt applyRule Q onNoMatch v m t) :
    FailsAt applyRule Q (attempt rule onMatch onNoMatch) s m t := by
  obtain ⟨v, ⟨span, hv, h⟩ | ⟨hv, h⟩ | ⟨m', hv, hm, rfl⟩⟩ := run_attempt h
  · obtain ⟨r, u, next, hcall, hr⟩ := hmatch span v hv h
    exact ⟨r, u, next, mem_calls_apply.mpr (.inr ⟨_, v, hv, hcall⟩), hr⟩
  · obtain ⟨r, u, next, hcall, hr⟩ := hnoMatch v hv h
    exact ⟨r, u, next, mem_calls_apply.mpr (.inr ⟨_, v, hv, hcall⟩), hr⟩
  · cases hm
    exact ⟨rule, s, _, mem_calls_apply.mpr (.inl rfl), hv, hQ⟩

section Combinators

variable (ha : ∀ r s o t, applyRule r s = some (o, t) → Steps s t) (hs : s.Ordered)
include ha hs

theorem failsAt_applyAll (hQ : ∀ v, Within s v → Q v) : ∀ (rules : List ρ) (u : Scanner α),
    (∀ r ∈ rules, KeepsMarks applyRule E r) → Within s u →
    (applyAll rules).run applyRule u = some (.failed m, t) →
    FailsAt applyRule Q (applyAll rules) u m t
  | [], u, _, hu, h => (accept_contract (E := fun _ => False) ha hs hu h).2.elim
  | rule :: rest, u, hr, hu, h => by
    refine failsAt_attempt (hQ u hu) h (fun span v hv h => ?_) fun v hv h => ?_
    · have hwithin : Within s v := hu.apply ha hs (hr rule (by simp)) hv (by simp)
      exact failsAt_applyAll hQ rest v (fun r h => hr r (by simp [h])) hwithin h
    · have hwithin : Within s v := hu.apply ha hs (hr rule (by simp)) hv (by simp)
      exact (reject_contract (E := fun _ => False) ha hwithin h).2.elim

theorem not_failed_of_endRounds {bounds : Bounds} {count : Nat} (hu : Within s u) :
    (endRounds bounds count : Script ρ α).run applyRule u ≠ some (.failed m, t) :=
  fun h => (endRounds_contract (E := fun _ => False) ha hs hu h).2

theorem failsAt_rounds (hQ : ∀ v, Within s v → Q v) {bounds : Bounds} {rule : ρ}
    (hr : KeepsMarks applyRule E rule) : ∀ (fuel count : Nat) (u : Scanner α), Within s u →
    (rounds bounds rule fuel count).run applyRule u = some (.failed m, t) →
    FailsAt applyRule Q (rounds bounds rule fuel count) u m t
  | 0, _, _, _, h => nomatch h
  | fuel + 1, count, u, hu, h => by
    simp only [rounds] at h ⊢
    split at h
    · rename_i hmore
      rw [if_pos hmore]
      refine failsAt_attempt (hQ u hu) h (fun span v hv h => ?_) fun v hv h => ?_
      · have hwithin : Within s v := hu.apply ha hs hr hv (by simp)
        split at h
        · exact absurd h (not_failed_of_endRounds ha hs hwithin)
        · rename_i hne
          rw [if_neg hne]
          exact failsAt_rounds hQ hr fuel _ v hwithin h
      · have hwithin : Within s v := hu.apply ha hs hr hv (by simp)
        exact absurd h (not_failed_of_endRounds ha hs hwithin)
    · exact absurd h (not_failed_of_endRounds ha hs hu)

theorem failsAt_choice : ∀ (rules : List ρ) (u : Scanner α), Steps s u →
    (∀ v, Steps s v → v.marks = u.marks → v.position = u.position → Q v) →
    (∀ r ∈ rules, KeepsContract applyRule E r) →
    (choice rules).run applyRule u = some (.failed m, t) → FailsAt applyRule Q (choice rules) u m t
  | [], _, _, _, _, h => nomatch h
  | rule :: rest, u, hu, hQ, hr, h => by
    refine failsAt_attempt (hQ u hu rfl rfl) h (fun span v hv h => nomatch h) fun v hv h => ?_
    obtain ⟨hp, hm, -⟩ := (hr rule (by simp) _ _ _ (hs.steps hu) hv).1
    refine failsAt_choice rest v (hu.trans (ha _ _ _ _ hv)) (fun w hw hm' hp' => ?_)
      (fun r h => hr r (by simp [h])) h
    exact hQ w hw (hm'.trans hm) (hp'.trans hp)

end Combinators

theorem failsAt_optional {rule : ρ} (hQ : Q s)
    (h : (optional rule).run applyRule s = some (.failed m, t)) :
    FailsAt applyRule Q (optional rule) s m t :=
  failsAt_attempt hQ h (fun _ _ _ h => nomatch h) fun _ _ h => nomatch h

end Script

/-! ### Applications that wait -/

/-- An application that waits for one that it has made: the rule and the scanner it was applied to, and
how it goes on for every outcome. -/
structure Frame (α : Type) where
  rule : Rule α
  scanner : Scanner α
  next : Outcome → Script (Rule α) α

/-- Concatenations and repetitions set a mark before they apply their rules. -/
def Rule.setsMark : Rule α → Bool
  | .concat _ | .repetition _ _ => true
  | _ => false

/-- The marks that the waiting applications have set: where those that set one began. -/
def Frame.leaked (frames : List (Frame α)) : List Nat :=
  (frames.filter (·.rule.setsMark)).map (·.scanner.position)

theorem Frame.leaked_cons (frame : Frame α) (frames : List (Frame α)) :
    leaked (frame :: frames) =
      if frame.rule.setsMark then frame.scanner.position :: leaked frames else leaked frames := by
  unfold leaked
  rw [List.filter_cons]
  split <;> rfl

namespace Rule

variable [Symbol α] {g : Grammar (Rule α)} {fuel : Nat} {rule : Rule α} {s t u u' : Scanner α}
  {m : Misuse} {n n' : Nonterminal} {frames frames' : List (Frame α)}

/-- In the application of a rule to `s`, an undefined nonterminal `n` is applied to `u`, and `frames`
are the applications that wait then, each for the next and the last for the nonterminal. -/
inductive MeetsUndefined (g : Grammar (Rule α)) :
    Nat → Rule α → Scanner α → List (Frame α) → Nonterminal → Scanner α → Prop
  | here {fuel : Nat} {n : Nonterminal} {s : Scanner α} (hb : g.body? n = none) :
    MeetsUndefined g (fuel + 1) (.nonterminal n) s [] n s
  | inside {fuel : Nat} {rule r : Rule α} {s u v : Scanner α} {next : Outcome → Script (Rule α) α}
    {frames : List (Frame α)} {n : Nonterminal}
    (hcall : (r, u, next) ∈ (rule.script g fuel).calls (apply g fuel) s)
    (h : MeetsUndefined g fuel r u frames n v) :
    MeetsUndefined g (fuel + 1) rule s (⟨rule, s, next⟩ :: frames) n v

/-- What meets an undefined nonterminal fails for it, and nobody does anything more. -/
theorem MeetsUndefined.apply (h : MeetsUndefined g fuel rule s frames n u) (hg : g.Plain)
    (hrule : rule.Plain) :
    rule.apply g fuel s = some (.failed (.unresolvedRule n.name), u.report (.appliedUndefined n.name)) ∧
      ∀ frame ∈ frames, ∀ m, frame.next (.failed m) = .answer (.failed m) := by
  induction h with
  | here hb =>
    refine ⟨?_, by simp⟩
    simp only [apply_succ, script, hb]
    rfl
  | @inside fuel rule r s u v next frames n hcall _ ih =>
    have hstrict := script_strict hg hrule fuel
    obtain ⟨hr, hnext⟩ := hstrict.of_mem_calls hcall
    obtain ⟨hfailed, hframes⟩ := ih hr
    exact ⟨hstrict.run_of_failed hcall hfailed, List.forall_mem_cons.mpr ⟨hnext, hframes⟩⟩

/-- At most one undefined nonterminal is met. -/
theorem MeetsUndefined.unique (h : MeetsUndefined g fuel rule s frames n u)
    (h' : MeetsUndefined g fuel rule s frames' n' u') (hg : g.Plain) (hrule : rule.Plain) :
    frames' = frames ∧ n' = n ∧ u' = u := by
  induction h generalizing frames' with
  | here hb =>
    cases h' with
    | here => exact ⟨rfl, rfl, rfl⟩
    | inside hcall _ => simp [script, hb, Script.calls] at hcall
  | @inside fuel rule r s u v next frames n hcall h ih =>
    cases h' with
    | here hb => simp [script, hb, Script.calls] at hcall
    | inside hcall' h' =>
      have hstrict := script_strict hg hrule fuel
      have hr := (hstrict.of_mem_calls hcall).1
      have hr' := (hstrict.of_mem_calls hcall').1
      cases hstrict.eq_of_failed hcall (h.apply hg hr).1 hcall' (h'.apply hg hr').1
      obtain ⟨rfl, rfl, rfl⟩ := ih h' hr
      exact ⟨rfl, rfl, rfl⟩

/-- Where a rule makes its applications: behind its mark, if it sets one, and else where it was applied
itself. -/
def AppliesAt (rule : Rule α) (s u : Scanner α) : Prop :=
  Steps s u ∧
    if rule.setsMark then u.marks = s.position :: s.marks
    else u.marks = s.marks ∧ u.position = s.position

omit [Symbol α] in
theorem AppliesAt.of_within (hrule : rule.setsMark = true) (h : Script.Within s u) :
    rule.AppliesAt s u :=
  ⟨h.steps, by rw [if_pos hrule]; exact h.marks⟩

omit [Symbol α] in
theorem AppliesAt.of_same (hrule : rule.setsMark = false) (hsteps : Steps s u)
    (hm : u.marks = s.marks) (hp : u.position = s.position) : rule.AppliesAt s u :=
  ⟨hsteps, by rw [if_neg (by simp [hrule])]; exact ⟨hm, hp⟩⟩

omit [Symbol α] in
/-- What a waiting application leaves, given what the one it waits for leaves. -/
theorem AppliesAt.leaves {next : Outcome → Script (Rule α) α} (h : rule.AppliesAt s u)
    (hu : u.Leaves (Frame.leaked frames) t) :
    s.Leaves (Frame.leaked (⟨rule, s, next⟩ :: frames)) t := by
  have hat := h.2
  rw [Frame.leaked_cons]
  split at hat
  · rename_i hmark
    rw [if_pos hmark]
    exact hu.of_mark hat
  · rename_i hmark
    rw [if_neg hmark]
    exact hu.of_same hat.1 hat.2

/-- Unless a rule is itself an undefined nonterminal, it fails in an application that it makes. -/
theorem failsAt_of_failed (hg : g.Plain) (hrule : rule.Plain) (hs : s.Ordered)
    (h : rule.apply g (fuel + 1) s = some (.failed m, t)) :
    (∃ n, rule = .nonterminal n ∧ g.body? n = none ∧ t = s.report (.appliedUndefined n.name)) ∨
      Script.FailsAt (apply g fuel) (rule.AppliesAt s) (rule.script g fuel) s m t := by
  have ha : ∀ r s o t, apply g fuel r s = some (o, t) → Steps s t :=
    fun _ _ _ _ => steps_of_apply g
  have hkeeps : ∀ r : Rule α, r.Plain → Script.KeepsContract (apply g fuel) (fun _ => True) r :=
    fun r hr => apply_keepsContract (fun _ hc => hc.elim) hg fuel r hr fun _ _ => trivial
  rw [apply_succ] at h
  cases hrule with
  | symbol | oneOf | range =>
    exact (Script.acceptIf_contract (E := fun _ => False) ha hs h).2.elim
  | endOfInput => exact (Script.endOfInput_contract (E := fun _ => False) ha hs h).2.elim
  | caseless => exact (Script.acceptRun_contract (E := fun _ => False) ha hs h).2.elim
  | concat hr =>
    exact .inr (Script.failsAt_applyAll ha hs (fun _ => .of_within rfl) _ _
      (fun r hmem => (hkeeps r (hr r hmem)).keepsMarks) (Script.within_pushMark s) h)
  | choice hr =>
    exact .inr (Script.failsAt_choice ha hs _ _ .refl (fun _ => .of_same rfl)
      (fun r hmem => hkeeps r (hr r hmem)) h)
  | optional hr => exact .inr (Script.failsAt_optional (.of_same rfl .refl rfl rfl) h)
  | repetition bounds hr =>
    simp only [script, Script.repetition] at h ⊢
    split at h
    · rename_i hb
      rw [if_pos hb]
      exact .inr (Script.failsAt_rounds ha hs (fun _ => .of_within rfl) (hkeeps _ hr).keepsMarks _ _ _
        (Script.within_pushMark s) h)
    · cases h
  | nonterminal n =>
    simp only [script] at h ⊢
    cases hb : g.body? n with
    | none =>
      rw [hb] at h
      cases h
      exact .inl ⟨n, rfl, hb, rfl⟩
    | some body =>
      rw [hb] at h
      exact .inr ⟨body, s, .answer, Script.mem_calls_apply.mpr (.inl rfl), apply_of_run_apply h,
        .of_same rfl .refl rfl rfl⟩
  | custom hc => exact hc.elim

/-- An application that fails has met an undefined nonterminal, and the marks of those that waited for
it are what it leaves. -/
theorem left_of_failed (hg : g.Plain) (hrule : rule.Plain) (hs : s.Ordered)
    (h : rule.apply g fuel s = some (.failed m, t)) :
    ∃ frames n u, MeetsUndefined g fuel rule s frames n u ∧ s.Leaves (Frame.leaked frames) t := by
  induction fuel generalizing rule s with
  | zero => cases h
  | succ fuel ih =>
    rcases failsAt_of_failed hg hrule hs h with ⟨n, rfl, hb, rfl⟩ | ⟨r, u, next, hcall, hr, hat⟩
    · exact ⟨[], n, s, .here hb, rfl, fun _ => rfl, by simp [Frame.leaked]⟩
    · have hplain := ((script_strict hg hrule fuel).of_mem_calls hcall).1
      obtain ⟨frames, n, v, hmeets, hleaves⟩ := ih hplain (hs.steps hat.1) hr
      exact ⟨_, n, v, .inside hcall hmeets, hat.leaves hleaves⟩

/-- **What an abandoned application leaves can be undone.**  An application that fails has met an
undefined nonterminal, once, and fails for it; from then on nothing is done, but that the nonterminal
is reported.  The marks that it leaves are those of the concatenations and repetitions that waited, and
the first of them is where it began.  To go back to as many marks as that restores the position and the
marks. -/
theorem abandoned_recoverable (hg : g.Plain) (hrule : rule.Plain) (hs : s.Ordered)
    (h : rule.apply g fuel s = some (.failed m, t)) :
    ∃ frames n u, MeetsUndefined g fuel rule s frames n u ∧
      (∀ frames' n' u', MeetsUndefined g fuel rule s frames' n' u' →
        frames' = frames ∧ n' = n ∧ u' = u) ∧
      m = .unresolvedRule n.name ∧ t = u.report (.appliedUndefined n.name) ∧
      (∀ frame ∈ frames, frame.next (.failed m) = .answer (.failed m)) ∧
      s.Leaves (Frame.leaked frames) t ∧
      ∃ v, t.rollbacks (Frame.leaked frames).length = .ok v ∧ v.position = s.position ∧
        v.marks = s.marks := by
  obtain ⟨frames, n, u, hmeets, hleaves⟩ := left_of_failed hg hrule hs h
  obtain ⟨hfailed, hframes⟩ := hmeets.apply hg hrule
  cases h.symm.trans hfailed
  exact ⟨frames, n, u, hmeets, fun _ _ _ h' => hmeets.unique h' hg hrule, rfl, rfl,
    fun frame hframe => hframes frame hframe _, hleaves, hleaves.rollbacks⟩

/-- Behind a branch that went back, in the first round of a repetition, with a mark of another set. -/
theorem abandoned_recoverable_of_second_branch :
    ∃ t v : Scanner Char,
      (concat [.symbol 'a', .choice [literal ['b', 'c'],
          zeroOrMore (.concat [.symbol 'b', .optional (.nonterminal ⟨0, "c"⟩)])]]).apply .empty 7
        ⟨#['z'], .ofList ['a', 'b', 'd'], [0], 1, #[]⟩ = some (.failed (.unresolvedRule "c"), t) ∧
      t.marks = [2, 2, 1, 0] ∧ t.position = 3 ∧ t.rollbacks 3 = .ok v ∧ v.position = 1 ∧
        v.marks = [0] := by
  have hg : Grammar.Plain (.empty : Grammar (Rule Char)) := fun n body h => nomatch h
  have hrule : (concat [.symbol 'a', .choice [literal ['b', 'c'],
      zeroOrMore (.concat [.symbol 'b', .optional (.nonterminal ⟨0, "c"⟩)])]]).Plain := by
    simp [zeroOrMore]
  have hs : Ordered (⟨#['z'], .ofList ['a', 'b', 'd'], [0], 1, #[]⟩ : Scanner Char) :=
    ⟨by simp, by simp, by simp⟩
  have happly : (concat [.symbol 'a', .choice [literal ['b', 'c'],
      zeroOrMore (.concat [.symbol 'b', .optional (.nonterminal ⟨0, "c"⟩)])]]).apply .empty 7
        ⟨#['z'], .ofList ['a', 'b', 'd'], [0], 1, #[]⟩ =
          some (.failed (.unresolvedRule "c"), ⟨#['z', 'a', 'b', 'd'], .ofList [], [2, 2, 1, 0], 3,
            #[.rolledBack 3 2, .appliedUndefined "c"]⟩) := rfl
  obtain ⟨frames, -, -, -, -, -, -, -, hleaves, v, hv, hposition, hmarks⟩ :=
    abandoned_recoverable hg hrule hs happly
  have hlength : [2, 2, 1, 0].length = ((Frame.leaked frames).reverse ++ [0]).length :=
    congrArg List.length hleaves.marks
  have hleaked : (Frame.leaked frames).length = 3 := by simpa using hlength.symm
  rw [hleaked] at hv
  exact ⟨_, v, happly, rfl, rfl, hv, hposition, hmarks⟩

end Rule

end Abnf
