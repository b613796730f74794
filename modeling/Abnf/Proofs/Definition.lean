import Abnf.Proofs.Draft
import Abnf.Proofs.Strict
import Abnf.Tree.Congruence
import Mathlib.Logic.Relation

/-!
# Abnf.Proofs.Definition — what further definitions can change

Two runs of a rule are compared, one before and one after further definitions.  They do the same until
the first of them comes to a nonterminal that was not defined then.  There it is given up, and combinators
hand that on: so an application that is not given up never came to one.  That is why custom scripts are
excluded; they may go on after a failure.

* `Rule.apply_sameUnless`, `Tree.Rule.apply_sameUnless`: the comparison, for any grammar that keeps the
  bodies of another.
* `definitions_permanent`: definitions are accepted once, and change no answer that was given.
-/

namespace Abnf

variable {ρ α : Type}

/-- What applications are given up for that come to a nonterminal without a body. -/
def Grammar.Unresolved (g : Grammar ρ) (m : Misuse) : Prop :=
  ∃ n, g.body? n = none ∧ m = .unresolvedRule n.name

/-! ### Scripts -/

/-- Unless `x` is given up for such a misuse, `y` is the same. -/
def SameUnless (E : Misuse → Prop) (x y : Option (Outcome × Scanner α)) : Prop :=
  x = y ∨ ∃ m t, E m ∧ x = some (.failed m, t)

/-- A strict script carries the comparison of the applications in it to its runs. -/
theorem Script.Strict.run_sameUnless {E : Misuse → Prop} {P : ρ → Prop}
    {p q : ρ → Scanner α → Option (Outcome × Scanner α)} {c : Script ρ α} (hc : c.Strict P)
    (h : ∀ r, P r → ∀ s, SameUnless E (p r s) (q r s)) (s : Scanner α) :
    SameUnless E (c.run p s) (c.run q s) := by
  induction c generalizing s with
  | answer outcome => exact .inl rfl
  | peek next ih => exact ih _ (hc _) _
  | advance next ih => exact ih _ (hc _) _
  | mark next ih => exact ih hc _
  | rollback next ih => exact ih _ (hc _) _
  | commit next ih => exact ih _ (hc _) _
  | inspect next ih => exact ih _ (hc _) _
  | report record next ih => exact ih hc _
  | apply rule next ih =>
    obtain ⟨hrule, hfailed, hnext⟩ := hc
    simp only [run]
    rcases h rule hrule s with heq | ⟨m, t, hm, hx⟩
    · rw [← heq]
      cases p rule s with
      | none => exact .inl rfl
      | some x => exact ih x.1 (hnext x.1) x.2
    · -- The script ends with the failure, whatever the other application answers.
      rw [hx]
      exact .inr ⟨m, t, hm, by simp only [hfailed, run]⟩
  | unfinished => exact .inl rfl

/-! ### Rules -/

namespace Rule

variable {g g' : Grammar (Rule α)} {rule r : Rule α}

/-- Without custom scripts, also in the bodies that it leads to. -/
def PlainIn (g : Grammar (Rule α)) (rule : Rule α) : Prop :=
  ∀ c, ¬ Relation.ReflTransGen (Uses g) rule (.custom c)

theorem PlainIn.uses (h : rule.PlainIn g) (hr : Uses g rule r) : r.PlainIn g :=
  fun c hc => h c (.head hr hc)

theorem PlainIn.ne_custom (h : rule.PlainIn g) (c : Script (Rule α) α) : rule ≠ .custom c := by
  rintro rfl
  exact h c .refl

theorem plainIn_of_plain (hg : g.Plain) (hrule : rule.Plain) : rule.PlainIn g := by
  intro c hc
  have hplain : ∀ r, Relation.ReflTransGen (Uses g) rule r → r.Plain := by
    intro r hr
    induction hr with
    | refl => exact hrule
    | tail _ hlast ih => exact hlast.plain hg ih
  exact composed_custom_iff.mp (hplain _ hc)

variable [Symbol α]

/-- With more bodies a rule has the same script, unless it is a nonterminal that had none. -/
theorem script_of_keptIn (h : g.KeptIn g') (fuel : Nat) (rule : Rule α) :
    rule.script g fuel = rule.script g' fuel ∨ ∃ n, rule = .nonterminal n ∧ g.body? n = none := by
  cases rule with
  | nonterminal n =>
    cases hb : g.body? n with
    | none => exact .inr ⟨n, rfl, hb⟩
    | some body => exact .inl (by simp only [script, hb, h n body hb])
  | symbol | oneOf | range | endOfInput | caseless | concat | choice | optional | repetition
  | custom => exact .inl rfl

/-- More bodies change only applications that were given up for the lack of one. -/
theorem apply_sameUnless (h : g.KeptIn g') (hrule : rule.PlainIn g) (fuel : Nat) (s : Scanner α) :
    SameUnless g.Unresolved (rule.apply g fuel s) (rule.apply g' fuel s) := by
  induction fuel generalizing rule s with
  | zero => exact .inl rfl
  | succ fuel ih =>
    rw [apply_succ, apply_succ]
    rcases script_of_keptIn h fuel rule with heq | ⟨n, rfl, hb⟩
    · rw [← heq]
      exact (script_strict_uses hrule.ne_custom fuel).run_sameUnless
        (fun r hr s => ih (hrule.uses hr) s) s
    · exact .inr ⟨_, s.report (.appliedUndefined n.name), ⟨n, hb, rfl⟩, by simp only [script, hb]; rfl⟩

/-- A match is one in every grammar that keeps the bodies. -/
theorem apply_of_keptIn (h : g.KeptIn g') (hrule : rule.PlainIn g) {fuel : Nat} {s t : Scanner α}
    {span : Span} (hmatch : rule.apply g fuel s = some (.matched span, t)) :
    rule.apply g' fuel s = some (.matched span, t) := by
  rcases apply_sameUnless h hrule fuel s with heq | ⟨m, u, -, hfailed⟩
  · exact heq ▸ hmatch
  · cases hmatch.symm.trans hfailed

end Rule

/-! ### Rules for parse trees -/

namespace Tree

/-- Unless `t` is given up for such a misuse, `u` is the same. -/
def Trial.SameUnless (E : Misuse → Prop) {β : Type} (t u : Trial β) : Prop :=
  t = u ∨ ∃ m records, E m ∧ t = .failed m records

theorem Trial.sameUnless_congruence (E : Misuse → Prop) : Trial.Congruence (Trial.SameUnless E) where
  refl t := .inl rfl
  bind {β γ t u f f'} h hf := by
    rcases h with rfl | ⟨m, records, hm, rfl⟩
    · cases t with
      | done value first =>
        rcases hf value with heq | ⟨m, records, hm, hx⟩
        · exact .inl (by rw [done_bind, done_bind, heq])
        · exact .inr ⟨m, first ++ records, hm, by rw [done_bind, hx, after]⟩
      | failed | unfinished => exact .inl rfl
    · exact .inr ⟨m, records, hm, rfl⟩

/-- More bodies change only applications that were given up for the lack of one. -/
theorem Rule.apply_sameUnless {g g' : Grammar Rule} (h : g.KeptIn g') (fuel : Nat) (rule : Rule)
    (input : List UInt8) :
    (rule.apply g fuel input).SameUnless g.Unresolved (rule.apply g' fuel input) := by
  induction fuel generalizing rule input with
  | zero => exact .inl rfl
  | succ fuel ih =>
    refine Rule.parser_congr (Trial.sameUnless_congruence _) ih (fun n input => ?_) rule input
    cases hb : g.body? n with
    | none => exact .inr ⟨_, [], ⟨n, hb, rfl⟩, by simp only [parser, hb]; rfl⟩
    | some body =>
      simp only [parser, hb, h n body hb]
      exact ih body input

end Tree

/-! ### Both ways to apply rules -/

/-- **Definitions are permanent, and change no answer.**  Of the definitions of a nonterminal, by
whichever copy of its handle, the first is accepted and every other one is refused with its name; it
might as well not have been tried.  An application of a rule without custom scripts that answered before
further definitions answers the same after them and leaves the same scanner, and those that answer
otherwise came to a nonterminal without a body.  The same holds of rules for parse trees. -/
theorem definitions_permanent :
    (∀ (ρ : Type) (d : Draft ρ) (answers : List (Nonterminal × Except Misuse Unit)),
      Draft.History .empty answers d → ∀ n ∈ d.handles, ∀ first others,
        Draft.answersTo n answers = first :: others →
          first = .ok () ∧ ∀ answer ∈ others, answer = .error (.redefinedRule n.name)) ∧
    (∀ (ρ : Type) (d d' : Draft ρ) (n : Nonterminal) (m : Misuse)
      (before later : List (Nonterminal × Except Misuse Unit)),
      d.History (before ++ (n, .error m) :: later) d' → d.History (before ++ later) d') ∧
    (∀ (α : Type) [Symbol α] (d d' : Draft (Rule α))
      (answers : List (Nonterminal × Except Misuse Unit)), d.History answers d' →
      ∀ rule : Rule α, rule.PlainIn d.grammar → ∀ (fuel : Nat) (s : Scanner α),
        (∀ o t, (∀ m, o ≠ .failed m) → rule.apply d.grammar fuel s = some (o, t) →
          rule.apply d'.grammar fuel s = some (o, t)) ∧
        (rule.apply d.grammar fuel s ≠ rule.apply d'.grammar fuel s →
          ∃ n t, d.grammar.body? n = none ∧
            rule.apply d.grammar fuel s = some (.failed (.unresolvedRule n.name), t))) ∧
    ∀ (d d' : Draft Tree.Rule) (answers : List (Nonterminal × Except Misuse Unit)),
      d.History answers d' → ∀ (rule : Tree.Rule) (fuel : Nat) (input : List UInt8),
        (∀ found records, rule.apply d.grammar fuel input = .done found records →
          rule.apply d'.grammar fuel input = .done found records) ∧
        (rule.apply d.grammar fuel input ≠ rule.apply d'.grammar fuel input →
          ∃ n records, d.grammar.body? n = none ∧
            rule.apply d.grammar fuel input = .failed (.unresolvedRule n.name) records) := by
  refine ⟨fun ρ d answers h n hn first others ha => h.first_defines hn rfl ha,
    fun ρ d d' n m before later h => h.leave_out,
    fun α _ d d' answers h rule hrule fuel s => ?_, fun d d' answers h rule fuel input => ?_⟩
  · rcases Rule.apply_sameUnless h.grows hrule fuel s with heq | ⟨m, t, ⟨n, hn, rfl⟩, hx⟩
    · exact ⟨fun o t _ ho => heq ▸ ho, fun hne => absurd heq hne⟩
    · refine ⟨fun o u ho hu => ?_, fun _ => ⟨n, t, hn, hx⟩⟩
      cases hx.symm.trans hu
      exact absurd rfl (ho _)
  · rcases Tree.Rule.apply_sameUnless h.grows fuel rule input with heq | ⟨m, records, ⟨n, hn, rfl⟩, hx⟩
    · exact ⟨fun found records hf => heq ▸ hf, fun hne => absurd heq hne⟩
    · refine ⟨fun found later hf => ?_, fun _ => ⟨n, records, hn, hx⟩⟩
      cases hx.symm.trans hf

/-- Two nonterminals, "list" with a body and "item" without, and a second handle of "list". -/
def Draft.withList (list : ρ) : Draft ρ :=
  (((Draft.empty.create "list").create "item").define (n := ⟨0, "list"⟩) (g := ⟨2, [(0, list)]⟩)
    rfl).copy (.tail _ (.head _))

/-- The same, with a body for "item" too. -/
def Draft.withListAndItem (list item : ρ) : Draft ρ :=
  (Draft.withList list).define (n := ⟨1, "item"⟩) (g := ⟨2, [(1, item), (0, list)]⟩) rfl

theorem Draft.history_withList (list other : ρ) :
    History .empty [(⟨0, "list"⟩, .ok ()), (⟨0, "list"⟩, .error (.redefinedRule "list"))]
      (Draft.withList list) :=
  .create "list" (.create "item" (.define list (.tail _ (.head _)) rfl (.copy (.tail _ (.head _))
    (.refuse other (.head _) rfl (.refl _)))))

theorem Draft.history_withListAndItem (list item : ρ) :
    (Draft.withList list).History [(⟨1, "item"⟩, .ok ())] (Draft.withListAndItem list item) :=
  .define item (.tail _ (.head _)) rfl (.refl _)

/-- A list in brackets, an `x`, or an item behind a dash. -/
def bracketList : Rule Char :=
  .choice [.concat [.symbol '(', .nonterminal ⟨0, "list"⟩, .symbol ')'], .symbol 'x',
    .concat [.symbol '-', .nonterminal ⟨1, "item"⟩]]

/-- The same, to be recorded in parse trees. -/
def bracketListTree : Tree.Rule :=
  .choice "list" [.concat "brackets" [.terminal "open" [40], .nonterminal ⟨0, "list"⟩,
      .terminal "close" [41]],
    .terminal "x" [120], .concat "dashed" [.terminal "dash" [45], .nonterminal ⟨1, "item"⟩]]

/-- What needs no item is matched alike before and after "item" is defined; `-y` is given up before. -/
theorem definitions_permanent_of_brackets :
    Draft.History .empty [(⟨0, "list"⟩, .ok ())] (Draft.withList bracketList) ∧
    (∀ answer ∈ [Except.error (.redefinedRule "list")],
      answer = (.error (.redefinedRule "list") : Except Misuse Unit)) ∧
    (∃ t, (Rule.nonterminal ⟨0, "list"⟩).apply (Draft.withListAndItem bracketList (.symbol 'y')).grammar 9
      (.ofSource (.ofList ['(', 'x', ')'])) = some (.matched ⟨0, 3⟩, t)) ∧
    (∃ n t, (Draft.withList bracketList).grammar.body? n = none ∧
      (Rule.nonterminal ⟨0, "list"⟩).apply (Draft.withList bracketList).grammar 9
        (.ofSource (.ofList ['-', 'y'])) = some (.failed (.unresolvedRule n.name), t)) ∧
    (∃ found, found.size = 1 ∧ (Tree.Rule.nonterminal ⟨0, "list"⟩).apply
      (Draft.withListAndItem bracketListTree (.terminal "y" [121])).grammar 9 [40, 120, 41] =
        .done found []) ∧
    ∃ n records, (Draft.withList bracketListTree).grammar.body? n = none ∧
      (Tree.Rule.nonterminal ⟨0, "list"⟩).apply (Draft.withList bracketListTree).grammar 9 [45, 121] =
        .failed (.unresolvedRule n.name) records := by
  obtain ⟨hfirst, hleave, hscan, htree⟩ := definitions_permanent
  have hhistory := Draft.history_withList bracketList (.symbol 'z')
  have hlater := Draft.history_withListAndItem bracketList (.symbol 'y')
  have hlaterTree := Draft.history_withListAndItem bracketListTree (.terminal "y" [121])
  have hplain : (Rule.nonterminal ⟨0, "list"⟩).PlainIn (Draft.withList bracketList).grammar := by
    refine Rule.plainIn_of_plain (fun n body h => ?_) (.nonterminal _)
    simp only [Grammar.body?, Draft.withList, Draft.copy, Draft.define, List.lookup_cons,
      List.lookup_nil] at h
    split at h <;> cases h
    simp [bracketList]
  have haccepted := hleave _ _ _ _ _ [(⟨0, "list"⟩, .ok ())] [] hhistory
  have hrefused := (hfirst _ _ _ hhistory ⟨0, "list"⟩ (.head _) _ _ rfl).2
  have hkept := (hscan _ _ _ _ hlater _ hplain 9 (.ofSource (.ofList ['(', 'x', ')']))).1
  have hchanged := (hscan _ _ _ _ hlater _ hplain 9 (.ofSource (.ofList ['-', 'y']))).2
  obtain ⟨t, hbefore⟩ : ∃ t, (Rule.nonterminal ⟨0, "list"⟩).apply (Draft.withList bracketList).grammar 9
      (.ofSource (.ofList ['-', 'y'])) = some (.failed (.unresolvedRule "item"), t) := ⟨_, rfl⟩
  obtain ⟨u, hafter⟩ : ∃ u, (Rule.nonterminal ⟨0, "list"⟩).apply
      (Draft.withListAndItem bracketList (.symbol 'y')).grammar 9 (.ofSource (.ofList ['-', 'y'])) =
        some (.matched ⟨0, 2⟩, u) := ⟨_, rfl⟩
  have hkeptTree := (htree _ _ _ hlaterTree (.nonterminal ⟨0, "list"⟩) 9 [40, 120, 41]).1
  have hchangedTree := (htree _ _ _ hlaterTree (.nonterminal ⟨0, "list"⟩) 9 [45, 121]).2
  exact ⟨haccepted, hrefused, ⟨_, hkept _ _ (by simp) rfl⟩, hchanged (by simp [hbefore, hafter]),
    ⟨_, by rfl, hkeptTree _ _ rfl⟩, hchangedTree (by decide +kernel)⟩

end Abnf
