import Abnf.Grammar

/-!
# Abnf.Proofs.Draft — grammars that are put together step by step

Nonterminals are defined by way of their handles.  A handle comes with its nonterminal or is a copy of
another, and may be placed in any body.  `Draft.History d answers d'`: creating, copying and defining
leads from `d` to `d'`, and `answers` is what the definitions answered.

* `Draft.History.grows`: a body once given stays.
* `Draft.History.first_defines`: of the definitions of a nonterminal the first is accepted and the others
  are refused.
* `Draft.History.leave_out`: a refused definition might as well not have been tried.
-/

namespace Abnf

variable {ρ : Type}

namespace Grammar

variable {g g' : Grammar ρ} {n : Nonterminal} {body : ρ} {m : Misuse}

/-- Every body of `g` is one of `g'` too. -/
def KeptIn (g g' : Grammar ρ) : Prop := ∀ n body, g.body? n = some body → g'.body? n = some body

theorem KeptIn.refl (g : Grammar ρ) : g.KeptIn g := fun _ _ h => h

theorem KeptIn.trans {g'' : Grammar ρ} (h : g.KeptIn g') (h' : g'.KeptIn g'') : g.KeptIn g'' :=
  fun n body hb => h' n body (h n body hb)

theorem isDefined_congr {n' : Nonterminal} (h : n.id = n'.id) : g.isDefined n = g.isDefined n' := by
  simp [isDefined, body?, h]

theorem define_eq_error (h : g.define n body = .error m) :
    g.isDefined n = true ∧ m = .redefinedRule n.name := by
  unfold define at h
  split at h
  · rename_i hn
    cases h
    exact ⟨hn, rfl⟩
  · cases h

theorem not_isDefined_of_define (h : g.define n body = .ok g') : g.isDefined n = false := by
  unfold define at h
  split at h
  · cases h
  · rename_i hn
    simpa using hn

theorem keptIn_of_define (h : g.define n body = .ok g') : g.KeptIn g' := by
  intro n' body' hb
  rw [body?_define h]
  split
  · rename_i hid
    have hn : g.isDefined n' = false := (isDefined_congr hid).trans (not_isDefined_of_define h)
    simp [isDefined, hb] at hn
  · exact hb

/-- After a definition there is one more nonterminal defined. -/
theorem isDefined_define (h : g.define n body = .ok g') (n' : Nonterminal) :
    g'.isDefined n' = (decide (n'.id = n.id) || g.isDefined n') := by
  rw [isDefined, body?_define h]
  split <;> simp_all [isDefined]

end Grammar

/-- A grammar that is being put together, and the handles by which its nonterminals are defined. -/
structure Draft (ρ : Type) where
  grammar : Grammar ρ
  handles : List Nonterminal
  /-- The handles are of nonterminals that were created. -/
  created : ∀ n ∈ handles, n.id < grammar.created
  /-- Handles of one nonterminal are copies of each other. -/
  copies : ∀ n ∈ handles, ∀ n' ∈ handles, n.id = n'.id → n = n'

namespace Draft

/-- The draft without nonterminals. -/
def empty : Draft ρ where
  grammar := .empty
  handles := []
  created := by simp
  copies := by simp

/-- After a nonterminal was created, whose handle is new. -/
def create (d : Draft ρ) (name : String) : Draft ρ where
  grammar := (d.grammar.create name).2
  handles := (d.grammar.create name).1 :: d.handles
  created := by
    intro n hn
    rcases List.mem_cons.mp hn with rfl | hn
    · exact Nat.lt_succ_self _
    · exact Nat.lt_succ_of_lt (d.created n hn)
  copies := by
    -- The number of the new one is greater than all others.
    have hnew : ∀ n ∈ d.handles, n.id ≠ d.grammar.created := fun n hn => Nat.ne_of_lt (d.created n hn)
    intro n hn n' hn' hid
    rcases List.mem_cons.mp hn with rfl | hn <;> rcases List.mem_cons.mp hn' with rfl | hn'
    · rfl
    · exact absurd hid.symm (hnew n' hn')
    · exact absurd hid (hnew n hn)
    · exact d.copies n hn n' hn' hid

/-- After a handle was copied. -/
def copy (d : Draft ρ) {n : Nonterminal} (hn : n ∈ d.handles) : Draft ρ where
  grammar := d.grammar
  handles := n :: d.handles
  created := List.forall_mem_cons.mpr ⟨d.created n hn, d.created⟩
  copies := by
    have hsub : ∀ n' ∈ n :: d.handles, n' ∈ d.handles := by simp [hn]
    exact fun n₁ h₁ n₂ h₂ => d.copies n₁ (hsub n₁ h₁) n₂ (hsub n₂ h₂)

/-- After a definition that was accepted. -/
def define (d : Draft ρ) {n : Nonterminal} {body : ρ} {g : Grammar ρ}
    (hg : d.grammar.define n body = .ok g) : Draft ρ where
  grammar := g
  handles := d.handles
  created := by
    have hcreated : g.created = d.grammar.created := by
      unfold Grammar.define at hg
      split at hg <;> cases hg
      rfl
    rw [hcreated]
    exact d.created
  copies := d.copies

/-- Creating, copying and defining leads from a draft to another; the list has the definitions by the
handle that was used, and what they answered. -/
inductive History : Draft ρ → List (Nonterminal × Except Misuse Unit) → Draft ρ → Prop
  | refl (d : Draft ρ) : History d [] d
  | create {d d' : Draft ρ} {answers : List (Nonterminal × Except Misuse Unit)} (name : String)
    (h : History (d.create name) answers d') : History d answers d'
  | copy {d d' : Draft ρ} {answers : List (Nonterminal × Except Misuse Unit)} {n : Nonterminal}
    (hn : n ∈ d.handles) (h : History (d.copy hn) answers d') : History d answers d'
  | define {d d' : Draft ρ} {answers : List (Nonterminal × Except Misuse Unit)} {n : Nonterminal}
    {g : Grammar ρ} (body : ρ) (hn : n ∈ d.handles) (hg : d.grammar.define n body = .ok g)
    (h : History (d.define hg) answers d') : History d ((n, .ok ()) :: answers) d'
  | refuse {d d' : Draft ρ} {answers : List (Nonterminal × Except Misuse Unit)} {n : Nonterminal}
    {m : Misuse} (body : ρ) (hn : n ∈ d.handles) (hg : d.grammar.define n body = .error m)
    (h : History d answers d') : History d ((n, .error m) :: answers) d'

/-- What the definitions by handles of `n` answered. -/
def answersTo (n : Nonterminal) (answers : List (Nonterminal × Except Misuse Unit)) :
    List (Except Misuse Unit) :=
  (answers.filter (·.1 = n)).map (·.2)

namespace History

variable {d d' : Draft ρ} {answers later : List (Nonterminal × Except Misuse Unit)} {n : Nonterminal}
  {m : Misuse}

theorem grows (h : History d answers d') : d.grammar.KeptIn d'.grammar := by
  induction h with
  | refl d => exact .refl _
  | create name _ ih => exact ih
  | copy hn _ ih => exact ih
  | define body hn hg _ ih => exact (Grammar.keptIn_of_define hg).trans ih
  | refuse body hn hg _ ih => exact ih

theorem handles_subset (h : History d answers d') : d.handles ⊆ d'.handles := by
  induction h with
  | refl d => exact List.Subset.refl _
  | create name _ ih | copy hn _ ih => exact List.Subset.trans (List.subset_cons_self _ _) ih
  | define body hn hg _ ih => exact ih
  | refuse body hn hg _ ih => exact ih

/-- Once a nonterminal is defined, every definition of it is refused. -/
theorem refused_of_isDefined (h : History d answers d') (hn : d.grammar.isDefined n = true) :
    ∀ answer ∈ answersTo n answers, answer = .error (.redefinedRule n.name) := by
  induction h with
  | refl d => simp [answersTo]
  | create name _ ih => exact ih hn
  | copy hmem _ ih => exact ih hn
  | @define d d' answers n' g body hmem hg _ ih =>
    have hne : n' ≠ n := by
      rintro rfl
      exact absurd hn (by simp [Grammar.not_isDefined_of_define hg])
    have hlater := ih (by simp [Draft.define, Grammar.isDefined_define hg, hn])
    simpa [answersTo, hne] using hlater
  | @refuse d d' answers n' m body hmem hg _ ih =>
    obtain ⟨-, rfl⟩ := Grammar.define_eq_error hg
    by_cases heq : n' = n
    · subst heq
      simpa [answersTo] using ih hn
    · simpa [answersTo, heq] using ih hn

/-- Of the definitions of a nonterminal that has none, the first is accepted and the others are refused. -/
theorem first_defines (h : History d answers d') (hmem : n ∈ d'.handles)
    (hn : d.grammar.isDefined n = false) {first : Except Misuse Unit}
    {others : List (Except Misuse Unit)} (ha : answersTo n answers = first :: others) :
    first = .ok () ∧ ∀ answer ∈ others, answer = .error (.redefinedRule n.name) := by
  induction h with
  | refl d => cases ha
  | create name _ ih => exact ih hmem hn ha
  | copy hcopied _ ih => exact ih hmem hn ha
  | @define d d' answers n' g body hhandle hg h ih =>
    by_cases heq : n' = n
    · subst heq
      simp only [answersTo, List.filter_cons, decide_true, if_true, List.map_cons,
        List.cons.injEq] at ha
      obtain ⟨rfl, rfl⟩ := ha
      exact ⟨rfl, h.refused_of_isDefined (by simp [Draft.define, Grammar.isDefined_define hg])⟩
    · have hid : n.id ≠ n'.id := fun hid =>
        heq (d'.copies n' (h.handles_subset hhandle) n hmem hid.symm)
      refine ih hmem ?_ (by simpa [answersTo, heq] using ha)
      simp [Draft.define, Grammar.isDefined_define hg, hid, hn]
  | @refuse d d' answers n' m body hhandle hg h ih =>
    have hne : n' ≠ n := by
      rintro rfl
      exact absurd (Grammar.define_eq_error hg).1 (by simp [hn])
    exact ih hmem hn (by simpa [answersTo, hne] using ha)

/-- A history in which a definition was refused is one without it. -/
theorem leave_out {before : List (Nonterminal × Except Misuse Unit)}
    (h : History d (before ++ (n, .error m) :: later) d') : History d (before ++ later) d' := by
  generalize hall : before ++ (n, .error m) :: later = answers at h
  induction h generalizing before with
  | refl d => simp at hall
  | create name _ ih => exact .create name (ih hall)
  | copy hn _ ih => exact .copy hn (ih hall)
  | define body hn hg h ih =>
    cases before with
    | nil => cases hall
    | cons answer before =>
      cases hall
      exact .define body hn hg (ih rfl)
  | refuse body hn hg h ih =>
    cases before with
    | nil =>
      cases hall
      exact h
    | cons answer before =>
      cases hall
      exact .refuse body hn hg (ih rfl)

end History

end Draft

end Abnf
