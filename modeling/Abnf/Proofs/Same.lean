import Abnf.Proofs.Peg

/-!
# Abnf.Proofs.Same — rules that come to the same

Two rules are the same over an input if they come to the same outcomes at each of its positions.  That
is kept by all ways to put rules together, so that parts can be exchanged for others that are the same;
and a concatenation and a choice may be grouped otherwise.

* `Same.concat_append`, `Same.choice_append`: what is grouped in front need not be.
* `Same.distrib`: a concatenation distributes over a choice behind its first rule, as that comes to one
  outcome only (`ComesTo.unique`).
* `ComesTo.of_bodies`: bodies of nonterminals can be exchanged as well.
-/

namespace Abnf

variable {α : Type}

@[simp] theorem Outcome.since_eq_noMatch_iff {p : Nat} {o : Outcome} :
    o.since p = .noMatch ↔ o = .noMatch := by
  cases o <;> simp [since]

namespace Rule

variable [Symbol α]

/-- Over the input, both rules come to the same outcomes wherever they are applied. -/
def Same (g : Grammar (Rule α)) (input : List α) (r r' : Rule α) : Prop :=
  ∀ p o, r.ComesTo g input p o ↔ r'.ComesTo g input p o

variable {g g' : Grammar (Rule α)} {input : List α} {r r' r'' first : Rule α}
  {as bs bs' rest : List (Rule α)} {p : Nat} {o : Outcome}

/-! ### Lists of rules, from the front -/

theorem comesTo_concat_cons_iff : (concat (first :: rest)).ComesTo g input p o ↔
    (∃ m o', first.ComesTo g input p (.matched ⟨p, m⟩) ∧ (concat rest).ComesTo g input m o' ∧
        o = o'.since p) ∨
      (first.ComesTo g input p o ∧ ∀ span, o ≠ .matched span) := by
  constructor
  · intro h
    cases h with
    | concatCons hfirst hrest => exact .inl ⟨_, _, hfirst, hrest, rfl⟩
    | concatElse hfirst ho => exact .inr ⟨hfirst, ho⟩
  · rintro (⟨m, o', hfirst, hrest, rfl⟩ | ⟨hfirst, ho⟩)
    · exact .concatCons hfirst hrest
    · exact .concatElse hfirst ho

theorem comesTo_choice_cons_iff : (choice (first :: rest)).ComesTo g input p o ↔
    (first.ComesTo g input p o ∧ o ≠ .noMatch) ∨
      (first.ComesTo g input p .noMatch ∧ (choice rest).ComesTo g input p o) := by
  constructor
  · intro h
    cases h with
    | choiceFirst hfirst ho => exact .inl ⟨hfirst, ho⟩
    | choiceNext hfirst hrest => exact .inr ⟨hfirst, hrest⟩
  · rintro (⟨hfirst, ho⟩ | ⟨hfirst, hrest⟩)
    · exact .choiceFirst hfirst ho
    · exact .choiceNext hfirst hrest

/-- A match of what is left of a concatenation, from where it was begun. -/
theorem ComesTo.matched_of_since {m n : Nat} (h : r.ComesTo g input m o)
    (ho : o.since p = .matched ⟨p, n⟩) : r.ComesTo g input m (.matched ⟨m, n⟩) := by
  cases o with
  | matched span =>
    cases ho
    obtain rfl := h.start_eq span rfl
    exact h
  | noMatch | failed => cases ho

theorem since_of_not_matched (ho : ∀ span, o ≠ .matched span) : o.since p = o := by
  cases o with
  | matched span => exact absurd rfl (ho span)
  | noMatch | failed => rfl

theorem eq_of_since_not_matched (ho : ∀ span, o.since p ≠ .matched span) :
    (∀ span, o ≠ .matched span) ∧ o.since p = o := by
  cases o with
  | matched span => exact absurd rfl (ho _)
  | noMatch | failed => exact ⟨by simp, rfl⟩

/-! ### The relation -/

namespace Same

theorem refl (r : Rule α) : Same g input r r := fun _ _ => .rfl

theorem symm (h : Same g input r r') : Same g input r' r := fun p o => (h p o).symm

theorem trans (h : Same g input r r') (h' : Same g input r' r'') : Same g input r r'' :=
  fun p o => (h p o).trans (h' p o)

/-! ### Rules with a part exchanged -/

theorem concat_cons (h : Same g input r r') (hrest : Same g input (concat bs) (concat bs')) :
    Same g input (concat (r :: bs)) (concat (r' :: bs')) := by
  intro p o
  simp only [comesTo_concat_cons_iff, h _ _, hrest _ _]

theorem choice_cons (h : Same g input r r') (hrest : Same g input (choice bs) (choice bs')) :
    Same g input (choice (r :: bs)) (choice (r' :: bs')) := by
  intro p o
  simp only [comesTo_choice_cons_iff, h _ _, hrest _ _]

theorem concat_behind (h : Same g input (concat bs) (concat bs')) (as : List (Rule α)) :
    Same g input (concat (as ++ bs)) (concat (as ++ bs')) := by
  induction as with
  | nil => exact h
  | cons a as ih => exact (refl a).concat_cons ih

theorem choice_behind (h : Same g input (choice bs) (choice bs')) (as : List (Rule α)) :
    Same g input (choice (as ++ bs)) (choice (as ++ bs')) := by
  induction as with
  | nil => exact h
  | cons a as ih => exact (refl a).choice_cons ih

theorem optional (h : Same g input r r') : Same g input r.optional r'.optional := by
  have honly : ∀ {r r' : Rule α}, Same g input r r' → ∀ p o, r.optional.ComesTo g input p o →
      r'.optional.ComesTo g input p o := by
    intro r r' h p o ho
    cases ho with
    | optional hrule hne => exact .optional ((h _ _).mp hrule) hne
    | optionalElse hrule => exact .optionalElse ((h _ _).mp hrule)
  exact fun p o => ⟨honly h p o, honly h.symm p o⟩

/-- By induction on the evaluation, for which what is left of the bounds changes with each round. -/
theorem comesTo_repetition (h : Same g input r r') {b : Bounds}
    (ho : (Rule.repetition b r).ComesTo g input p o) :
    (Rule.repetition b r').ComesTo g input p o := by
  generalize hq : Rule.repetition b r = q at ho
  induction ho generalizing b with
  | outOfOrder hb =>
    cases hq
    exact .outOfOrder hb
  | full hb hmax =>
    cases hq
    exact .full hb hmax
  | round hb hmax hrule hm _ _ ih =>
    cases hq
    exact .round hb hmax ((h _ _).mp hrule) hm (ih rfl)
  | emptyRound hb hmax hrule =>
    cases hq
    exact .emptyRound hb hmax ((h _ _).mp hrule)
  | enough hb hmax hrule hmin =>
    cases hq
    exact .enough hb hmax ((h _ _).mp hrule) hmin
  | tooFew hb hmax hrule hmin =>
    cases hq
    exact .tooFew hb hmax ((h _ _).mp hrule) hmin
  | roundFails hb hmax hrule =>
    cases hq
    exact .roundFails hb hmax ((h _ _).mp hrule)
  | _ => cases hq

theorem repetition (h : Same g input r r') (b : Bounds) :
    Same g input (.repetition b r) (.repetition b r') :=
  fun _ _ => ⟨h.comesTo_repetition, h.symm.comesTo_repetition⟩

/-! ### Groups -/

theorem concat_single (r : Rule α) : Same g input (concat [r]) r := by
  intro p o
  rw [comesTo_concat_cons_iff]
  constructor
  · rintro (⟨m, o', hr, hnil, rfl⟩ | ⟨hr, -⟩)
    · cases hnil
      exact hr
    · exact hr
  · intro hr
    cases o with
    | matched span =>
      obtain rfl := hr.start_eq span rfl
      exact .inl ⟨span.stop, _, hr, .concatNil, rfl⟩
    | noMatch => exact .inr ⟨hr, by simp⟩
    | failed misuse => exact .inr ⟨hr, by simp⟩

theorem choice_single (r : Rule α) : Same g input (choice [r]) r := by
  intro p o
  rw [comesTo_choice_cons_iff]
  constructor
  · rintro (⟨hr, -⟩ | ⟨hr, hnil⟩)
    · exact hr
    · cases hnil
      exact hr
  · intro hr
    by_cases ho : o = .noMatch
    · subst ho
      exact .inr ⟨hr, .choiceNil⟩
    · exact .inl ⟨hr, ho⟩

/-- The first of the rules may be grouped with the next ones or stand before the group. -/
theorem concat_assoc (a : Rule α) (as bs : List (Rule α)) :
    Same g input (concat (a :: concat as :: bs)) (concat (concat (a :: as) :: bs)) := by
  intro p o
  rw [comesTo_concat_cons_iff, comesTo_concat_cons_iff]
  constructor
  · rintro (⟨m, o', ha, hrest, rfl⟩ | ⟨ha, ho⟩)
    · rcases comesTo_concat_cons_iff.mp hrest with ⟨n, o'', has, hbs, rfl⟩ | ⟨has, ho⟩
      · rw [Outcome.since_since]
        exact .inl ⟨n, o'', .concatCons ha has, hbs, rfl⟩
      · rw [since_of_not_matched ho]
        have hgroup := ComesTo.concatCons ha has
        rw [since_of_not_matched ho] at hgroup
        exact .inr ⟨hgroup, ho⟩
    · exact .inr ⟨.concatElse ha ho, ho⟩
  · rintro (⟨n, o', hgroup, hbs, rfl⟩ | ⟨hgroup, ho⟩)
    · rcases comesTo_concat_cons_iff.mp hgroup with ⟨m, o₁, ha, has, hsince⟩ | ⟨-, hne⟩
      · have hrest := ComesTo.concatCons (has.matched_of_since hsince.symm) hbs
        exact .inl ⟨m, _, ha, hrest, (Outcome.since_since _ _ _).symm⟩
      · exact absurd rfl (hne _)
    · rcases comesTo_concat_cons_iff.mp hgroup with ⟨m, o₁, ha, has, rfl⟩ | ⟨ha, -⟩
      · obtain ⟨hne, hsame⟩ := eq_of_since_not_matched ho
        exact .inl ⟨m, o₁, ha, .concatElse has hne, rfl⟩
      · exact .inr ⟨ha, ho⟩

theorem concat_append (as bs : List (Rule α)) :
    Same g input (concat (as ++ bs)) (concat (concat as :: bs)) := by
  induction as with
  | nil =>
    intro p o
    rw [List.nil_append, comesTo_concat_cons_iff]
    constructor
    · exact fun h => .inl ⟨p, o, .concatNil, h, h.since_self.symm⟩
    · rintro (⟨m, o', hnil, h, rfl⟩ | ⟨hnil, ho⟩)
      · cases hnil
        rw [h.since_self]
        exact h
      · cases hnil
        exact absurd rfl (ho _)
  | cons a as ih => exact ((refl a).concat_cons ih).trans (concat_assoc a as bs)

theorem choice_append (as bs : List (Rule α)) :
    Same g input (choice (as ++ bs)) (choice (choice as :: bs)) := by
  induction as with
  | nil =>
    intro p o
    rw [List.nil_append, comesTo_choice_cons_iff]
    constructor
    · exact fun h => .inr ⟨.choiceNil, h⟩
    · rintro (⟨hnil, ho⟩ | ⟨-, h⟩)
      · cases hnil
        exact absurd rfl ho
      · exact h
  | cons a as ih =>
    intro p o
    rw [List.cons_append, comesTo_choice_cons_iff, ih p o]
    simp only [comesTo_choice_cons_iff]
    constructor
    · rintro (⟨ha, ho⟩ | ⟨ha, ⟨has, ho⟩ | ⟨has, hbs⟩⟩)
      · exact .inl ⟨.inl ⟨ha, ho⟩, ho⟩
      · exact .inl ⟨.inr ⟨ha, has⟩, ho⟩
      · exact .inr ⟨.inr ⟨ha, has⟩, hbs⟩
    · rintro (⟨⟨ha, -⟩ | ⟨ha, has⟩, ho⟩ | ⟨⟨-, ho⟩ | ⟨ha, has⟩, hbs⟩)
      · exact .inl ⟨ha, ho⟩
      · exact .inr ⟨ha, .inl ⟨has, ho⟩⟩
      · exact absurd rfl ho
      · exact .inr ⟨ha, .inr ⟨has, hbs⟩⟩

/-! ### Distribution -/

theorem comesTo_pair_iff {a b : Rule α} : (concat [a, b]).ComesTo g input p o ↔
    (∃ m o', a.ComesTo g input p (.matched ⟨p, m⟩) ∧ b.ComesTo g input m o' ∧ o = o'.since p) ∨
      (a.ComesTo g input p o ∧ ∀ span, o ≠ .matched span) := by
  rw [comesTo_concat_cons_iff]
  simp only [concat_single b _ _]

/-- If the first rule of all the concatenations does not match, none of them does; and if it matches,
they go on from the same place. -/
theorem distrib_cons (a b : Rule α) (bs : List (Rule α)) :
    Same g input (concat [a, choice (b :: bs)])
      (choice [concat [a, b], concat [a, choice bs]]) := by
  intro p o
  rw [comesTo_pair_iff, comesTo_choice_cons_iff, choice_single _ p o]
  constructor
  · rintro (⟨m, o', ha, hchoice, rfl⟩ | ⟨ha, ho⟩)
    · rcases comesTo_choice_cons_iff.mp hchoice with ⟨hb, ho⟩ | ⟨hb, hbs⟩
      · have hsince : o'.since p ≠ .noMatch := fun h => ho (Outcome.since_eq_noMatch_iff.mp h)
        exact .inl ⟨comesTo_pair_iff.mpr (.inl ⟨m, o', ha, hb, rfl⟩), hsince⟩
      · exact .inr ⟨comesTo_pair_iff.mpr (.inl ⟨m, _, ha, hb, rfl⟩),
          comesTo_pair_iff.mpr (.inl ⟨m, o', ha, hbs, rfl⟩)⟩
    · by_cases hnone : o = .noMatch
      · subst hnone
        exact .inr ⟨.concatElse ha ho, .concatElse ha ho⟩
      · exact .inl ⟨.concatElse ha ho, hnone⟩
  · rintro (⟨hpair, hne⟩ | ⟨hpair, hothers⟩)
    · rcases comesTo_pair_iff.mp hpair with ⟨m, o', ha, hb, rfl⟩ | ⟨ha, ho⟩
      · have hmatch : o' ≠ .noMatch := by
          rintro rfl
          exact hne rfl
        exact .inl ⟨m, o', ha, .choiceFirst hb hmatch, rfl⟩
      · exact .inr ⟨ha, ho⟩
    · rcases comesTo_pair_iff.mp hothers with ⟨m, o', ha, hbs, rfl⟩ | ⟨ha, ho⟩
      · rcases comesTo_pair_iff.mp hpair with ⟨n, o₁, ha', hb, hnone⟩ | ⟨ha', -⟩
        · cases ha.unique ha'
          obtain rfl := Outcome.since_eq_noMatch_iff.mp hnone.symm
          exact .inl ⟨m, o', ha, .choiceNext hb hbs, rfl⟩
        · cases ha.unique ha'
      · exact .inr ⟨ha, ho⟩

theorem distrib (a : Rule α) : ∀ {bs : List (Rule α)}, bs ≠ [] →
    Same g input (concat [a, choice bs]) (choice (bs.map fun b => concat [a, b]))
  | [], h => absurd rfl h
  | [b], _ => by
    have hpair : Same g input (concat [a, choice [b]]) (concat [a, b]) :=
      (refl a).concat_cons ((choice_single b).concat_cons (refl _))
    exact hpair.trans (choice_single _).symm
  | b :: b' :: rest, _ => by
    have hothers : Same g input (concat [a, choice (b' :: rest)])
        (choice ((b' :: rest).map fun b => concat [a, b])) := distrib a (by simp)
    have hrest := (choice_single _).trans hothers
    exact (distrib_cons a b _).trans ((refl _).choice_cons hrest)

end Same

/-! ### Bodies -/

/-- Bodies may be exchanged for others that are the same where these are used. -/
theorem ComesTo.of_bodies (h : r.ComesTo g input p o)
    (hbody : ∀ n body, g.body? n = some body →
      ∃ body', g'.body? n = some body' ∧ Same g' input body body')
    (hnone : ∀ n, g.body? n = none → g'.body? n = none) : r.ComesTo g' input p o := by
  induction h with
  | symbol ha => exact .symbol ha
  | symbolElse ha => exact .symbolElse ha
  | oneOf ha hmem => exact .oneOf ha hmem
  | oneOfElse hno => exact .oneOfElse hno
  | range ha hmem => exact .range ha hmem
  | rangeElse hno => exact .rangeElse hno
  | atEnd => exact .atEnd
  | beforeEnd hp => exact .beforeEnd hp
  | caseless hpre => exact .caseless hpre
  | caselessElse hno => exact .caselessElse hno
  | concatNil => exact .concatNil
  | concatCons _ _ ihfirst ihrest => exact .concatCons ihfirst ihrest
  | concatElse _ ho ih => exact .concatElse ih ho
  | choiceNil => exact .choiceNil
  | choiceFirst _ ho ih => exact .choiceFirst ih ho
  | choiceNext _ _ ihfirst ihrest => exact .choiceNext ihfirst ihrest
  | optional _ ho ih => exact .optional ih ho
  | optionalElse _ ih => exact .optionalElse ih
  | outOfOrder hb => exact .outOfOrder hb
  | full hb hmax => exact .full hb hmax
  | round hb hmax _ hm _ ihrule ihrest => exact .round hb hmax ihrule hm ihrest
  | emptyRound hb hmax _ ih => exact .emptyRound hb hmax ih
  | enough hb hmax _ hmin ih => exact .enough hb hmax ih hmin
  | tooFew hb hmax _ hmin ih => exact .tooFew hb hmax ih hmin
  | roundFails hb hmax _ ih => exact .roundFails hb hmax ih
  | body hb _ ih =>
    obtain ⟨body', hb', hsame⟩ := hbody _ _ hb
    exact .body hb' ((hsame _ _).mp ih)
  | undefined hb => exact .undefined (hnone _ hb)

end Rule

end Abnf
