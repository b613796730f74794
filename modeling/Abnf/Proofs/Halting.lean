import Abnf.Proofs.Adequacy
import Mathlib.Order.WellFoundedSet

/-!
# Abnf.Proofs.Halting — rules without left recursion come to an end

`Rule.Nullable` says which rules can match nothing, `Rule.First` which nonterminals a rule can apply
before it has consumed anything.  Unless some nonterminal leads back to itself in that way, every
application ends, whatever the source does.  The measure is `Scanner.ahead`, the symbols that are
still to be consumed; where it stays, the nonterminals go down in a well-founded order.

* `Grammar.wellFounded_calls`, `Grammar.forall_of_calls`: the order, and the induction along it.
* `Rule.nullable_of_matchesNothing`: a rule that cannot match nothing moves on when it matches.
* `Rule.haltsAt_of_first`: a rule ends if the nonterminals that stand first in it do.
* `Rule.haltsAt`: every rule ends.
-/

namespace Abnf

/-! ### Left recursion -/

namespace Grammar

variable {ρ : Type} {first : ρ → Nat → Prop} {g : Grammar ρ}

/-- The number `j` stands first in the body of the nonterminal with the number `i`. -/
def Calls (first : ρ → Nat → Prop) (g : Grammar ρ) (i j : Nat) : Prop :=
  ∃ body, g.bodies.lookup i = some body ∧ first body j

/-- Some nonterminal leads back to itself by what stands first in the bodies. -/
def LeftRecursive (first : ρ → Nat → Prop) (g : Grammar ρ) : Prop :=
  ∃ i, Relation.TransGen (g.Calls first) i i

theorem not_leftRecursive_of_lt (h : ∀ i j, g.Calls first i j → j < i) :
    ¬ g.LeftRecursive first := by
  rintro ⟨i, hi⟩
  have hlt : ∀ j, Relation.TransGen (g.Calls first) i j → j < i := by
    intro j hj
    induction hj with
    | single hj => exact h _ _ hj
    | tail _ hj ih => exact (h _ _ hj).trans ih
  exact lt_irrefl i (hlt i hi)

theorem mem_bodies_of_lookup {i : Nat} {body : ρ} (h : g.bodies.lookup i = some body) :
    (i, body) ∈ g.bodies := by
  obtain ⟨before, behind, hbodies, -⟩ := List.lookup_eq_some_iff.mp h
  simp [hbodies]

theorem finite_defined (g : Grammar ρ) : {i | ∃ body, g.bodies.lookup i = some body}.Finite := by
  refine (List.finite_toSet (g.bodies.map Prod.fst)).subset ?_
  rintro i ⟨body, h⟩
  exact List.mem_map.mpr ⟨(i, body), mem_bodies_of_lookup h, rfl⟩

/-- There are finitely many bodies, so that calls that do not come back end somewhere. -/
theorem wellFounded_calls (h : ¬ g.LeftRecursive first) : WellFounded (flip (g.Calls first)) := by
  let R : Nat → Nat → Prop := flip (Relation.TransGen (g.Calls first))
  have hstrict : IsStrictOrder Nat R :=
    { irrefl := fun i hi => h ⟨i, hi⟩
      trans := fun _ _ _ hij hjk => hjk.trans hij }
  have hdefined := g.finite_defined.wellFoundedOn (r := R)
  have hleaf : ∀ i, (¬ ∃ body, g.bodies.lookup i = some body) → Acc (flip (g.Calls first)) i :=
    fun i hi => .intro i fun _ ⟨body, hbody, _⟩ => absurd ⟨body, hbody⟩ hi
  refine ⟨fun i => ?_⟩
  by_cases hi : ∃ body, g.bodies.lookup i = some body
  · refine hdefined.induction hi fun j _ ih => .intro j fun k hk => ?_
    by_cases hk' : ∃ body, g.bodies.lookup k = some body
    · exact ih k hk' (.single hk)
    · exact hleaf k hk'
  · exact hleaf i hi

/-- **The order of induction**: on what is ahead, and where that stays, on the calls.  What holds of a
rule if it holds of all rules with less ahead and of the nonterminals that stand first in the rule,
and of a nonterminal if it holds of the body, holds of all rules. -/
theorem forall_of_calls {plain : ρ → Prop} {P : Nat → ρ → Prop} (nonterminal : Nonterminal → ρ)
    (hrec : ¬ g.LeftRecursive first) (hplain : ∀ n body, g.body? n = some body → plain body)
    (hrule : ∀ k rule, plain rule → (∀ j < k, ∀ r, plain r → P j r) →
      (∀ n : Nonterminal, first rule n.id → P k (nonterminal n)) → P k rule)
    (hbody : ∀ k n, (∀ body, g.body? n = some body → P k body) → P k (nonterminal n)) (k : Nat) :
    ∀ rule, plain rule → P k rule := by
  induction k using Nat.strongRecOn with
  | ind k hbelow =>
    have hcalls : ∀ i (n : Nonterminal), n.id = i → P k (nonterminal n) := by
      intro i
      induction i using (wellFounded_calls hrec).induction with
      | h i ih =>
        rintro n rfl
        refine hbody k n fun body hb => ?_
        exact hrule k body (hplain n body hb) hbelow fun m hm => ih m.id ⟨body, hb, hm⟩ m rfl
    exact fun rule h => hrule k rule h hbelow fun n _ => hcalls n.id n rfl

end Grammar

variable {α : Type}

open Scanner

/-! ### What is ahead -/

/-- How many symbols are still to be consumed: those buffered from the position on, and those of the
source. -/
def Scanner.ahead (s : Scanner α) : Nat :=
  s.buffer.size + s.source.contents.length - s.position

/-- What is consumed was ahead, and what is given back is ahead again. -/
theorem Scanner.ahead_steps {s t : Scanner α} (hs : s.Ordered) (h : Steps s t) :
    t.ahead + t.position = s.ahead + s.position := by
  have hlength := congrArg List.length (contents_steps h)
  simp only [List.length_append, Array.length_toList] at hlength
  have hposition := hs.position_le
  have hposition' := (hs.steps h).position_le
  unfold ahead
  omega

/-! ### Matches of nothing -/

namespace Script

variable {ρ : Type} {applyRule : ρ → Scanner α → Option (Outcome × Scanner α)} {E : Misuse → Prop}
  {s t u : Scanner α} {span : Span}

/-- From some scanner in order, the rule matches and leaves the position where it was. -/
def MatchesNothing (applyRule : ρ → Scanner α → Option (Outcome × Scanner α)) (r : ρ) : Prop :=
  ∃ s span t, Ordered s ∧ applyRule r s = some (.matched span, t) ∧ t.position = s.position

theorem position_of_accept (h : (accept : Script ρ α).run applyRule u = some (.matched span, t)) :
    t.position = u.position := by
  simp only [accept, run] at h
  split at h <;> cases h
  exact position_commit u

theorem position_of_acceptIf {test : α → Bool} (hs : s.Ordered)
    (h : (acceptIf test : Script ρ α).run applyRule s = some (.matched span, t)) :
    t.position = s.position + 1 := by
  simp only [acceptIf, run] at h
  cases hc : s.peek.1 with
  | none =>
    rw [hc] at h
    cases h
  | some a =>
    rw [hc] at h
    dsimp only at h
    split at h
    · have hlt := position_lt_of_peek hs.position_le hc
      simp only [consume, run, advance_of_lt hlt, position_peek] at h
      cases h
      rfl
    · cases h

theorem position_of_acceptAll : ∀ {tests : List (α → Bool)} {u : Scanner α}, u.Ordered →
    (acceptAll tests : Script ρ α).run applyRule u = some (.matched span, t) →
    t.position = u.position + tests.length
  | [], _, _, h => position_of_accept h
  | test :: rest, u, hu, h => by
    simp only [acceptAll, run] at h
    cases hc : u.peek.1 with
    | none =>
      rw [hc] at h
      exact absurd h not_matched_of_reject
    | some a =>
      rw [hc] at h
      dsimp only at h
      split at h
      · have hlt := position_lt_of_peek hu.position_le hc
        have hadv := hu.peek.advance
        simp only [run, advance_of_lt hlt, position_peek] at h hadv
        rw [position_of_acceptAll hadv h, List.length_cons, Nat.add_assoc, Nat.add_comm 1]
      · exact absurd h not_matched_of_reject

/-- A repetition ends where it is, with enough rounds. -/
theorem position_of_endRounds {b : Bounds} {count : Nat}
    (h : (endRounds b count : Script ρ α).run applyRule u = some (.matched span, t)) :
    b.min ≤ count ∧ t.position = u.position := by
  unfold endRounds at h
  split at h
  · exact absurd h not_matched_of_reject
  · rename_i hle
    exact ⟨by omega, position_of_accept h⟩

section Positions

variable (ha : ∀ r s o t, applyRule r s = some (o, t) → Steps s t)
include ha

/-- Rules one after another match nothing only if each of them does. -/
theorem matchesNothing_of_applyAll : ∀ {rules : List ρ} {u : Scanner α}, u.Ordered →
    (∀ r ∈ rules, KeepsContract applyRule E r) →
    (applyAll rules).run applyRule u = some (.matched span, t) →
    u.position ≤ t.position ∧
      (t.position = u.position → ∀ r ∈ rules, MatchesNothing applyRule r)
  | [], u, _, _, h => ⟨(position_of_accept h).ge, fun _ _ hr => nomatch hr⟩
  | rule :: rest, u, hu, hr, h => by
    obtain ⟨v, ⟨first, hv, h⟩ | ⟨hv, h⟩ | ⟨m, -, hm, -⟩⟩ := run_attempt h
    · have hc := (hr rule List.mem_cons_self _ _ _ hu hv).1
      obtain ⟨hle, hrest⟩ := matchesNothing_of_applyAll (hu.steps (ha _ _ _ _ hv))
        (fun r hmem => hr r (List.mem_cons_of_mem _ hmem)) h
      have hfirst := hc.position_le
      refine ⟨hfirst.trans hle, fun hstay r hmem => ?_⟩
      have hv' : v.position = u.position := by omega
      rcases List.mem_cons.mp hmem with rfl | hmem
      · exact ⟨u, first, v, hu, hv, hv'⟩
      · exact hrest (hstay.trans hv'.symm) r hmem
    · exact absurd h not_matched_of_reject
    · cases hm

/-- A choice matches nothing only if one of the rules does. -/
theorem matchesNothing_of_choice : ∀ {rules : List ρ} {u : Scanner α}, u.Ordered →
    (∀ r ∈ rules, KeepsContract applyRule E r) →
    (choice rules).run applyRule u = some (.matched span, t) → t.position = u.position →
    ∃ r ∈ rules, MatchesNothing applyRule r
  | [], _, _, _, h, _ => nomatch h
  | rule :: rest, u, hu, hr, h, hstay => by
    obtain ⟨v, ⟨first, hv, h⟩ | ⟨hv, h⟩ | ⟨m, -, hm, -⟩⟩ := run_attempt h
    · cases h
      exact ⟨rule, List.mem_cons_self, u, span, t, hu, hv, hstay⟩
    · have hback := (hr rule List.mem_cons_self _ _ _ hu hv).1.1
      obtain ⟨r, hmem, hnothing⟩ := matchesNothing_of_choice (hu.steps (ha _ _ _ _ hv))
        (fun r hmem => hr r (List.mem_cons_of_mem _ hmem)) h (hstay.trans hback.symm)
      exact ⟨r, List.mem_cons_of_mem _ hmem, hnothing⟩
    · cases hm

/-- A repetition that still needs rounds matches nothing only if its rule does. -/
theorem matchesNothing_of_rounds {b : Bounds} {rule : ρ} (hr : KeepsContract applyRule E rule) :
    ∀ {fuel count : Nat} {u : Scanner α}, u.Ordered →
      (rounds b rule fuel count).run applyRule u = some (.matched span, t) →
      u.position ≤ t.position ∧
        (t.position = u.position → count < b.min → MatchesNothing applyRule rule)
  | 0, _, _, _, h => nomatch h
  | fuel + 1, count, u, hu, h => by
    simp only [rounds] at h
    split at h
    · obtain ⟨v, ⟨round, hv, h⟩ | ⟨hv, h⟩ | ⟨m, -, hm, -⟩⟩ := run_attempt h
      · have hc := (hr _ _ _ hu hv).1
        have hround := hc.span_eq
        have hle := hc.position_le
        split at h
        · obtain ⟨-, hend⟩ := position_of_endRounds h
          exact ⟨hle.trans hend.ge, fun hstay _ => ⟨u, round, v, hu, hv, hend.symm.trans hstay⟩⟩
        · rename_i hempty
          have hne : u.position ≠ v.position := fun heq => hempty (by simp [hround, heq])
          obtain ⟨hrest, -⟩ := matchesNothing_of_rounds hr (hu.steps (ha _ _ _ _ hv)) h
          exact ⟨hle.trans hrest, fun hstay => by omega⟩
      · have hback := (hr _ _ _ hu hv).1.1
        obtain ⟨hmin, hend⟩ := position_of_endRounds h
        exact ⟨(hend.trans hback).ge, fun _ hlt => by omega⟩
      · cases hm
    · obtain ⟨hmin, hend⟩ := position_of_endRounds h
      exact ⟨hend.ge, fun _ hlt => by omega⟩

end Positions

end Script

/-! ### Rules that can match nothing, and nonterminals that stand first -/

namespace Rule

/-- Can match nothing. -/
inductive Nullable (g : Grammar (Rule α)) : Rule α → Prop
  | endOfInput : Nullable g .endOfInput
  | caseless : Nullable g (.caseless [])
  | concat {rules : List (Rule α)} (h : ∀ r ∈ rules, Nullable g r) : Nullable g (.concat rules)
  | choice {rules : List (Rule α)} {r : Rule α} (hr : r ∈ rules) (h : Nullable g r) :
    Nullable g (.choice rules)
  | optional (rule : Rule α) : Nullable g (.optional rule)
  | noRound {b : Bounds} (hmin : b.min = 0) (rule : Rule α) : Nullable g (.repetition b rule)
  | repetition (b : Bounds) {rule : Rule α} (h : Nullable g rule) : Nullable g (.repetition b rule)
  | nonterminal {n : Nonterminal} {body : Rule α} (hb : g.body? n = some body)
    (h : Nullable g body) : Nullable g (.nonterminal n)

/-- The number of a nonterminal that stands in the rule behind nothing but what can match nothing. -/
inductive First (g : Grammar (Rule α)) : Rule α → Nat → Prop
  | nonterminal (n : Nonterminal) : First g (.nonterminal n) n.id
  | concatHead {first : Rule α} {rest : List (Rule α)} {i : Nat} (h : First g first i) :
    First g (.concat (first :: rest)) i
  | concatTail {first : Rule α} {rest : List (Rule α)} {i : Nat} (hfirst : Nullable g first)
    (h : First g (.concat rest) i) : First g (.concat (first :: rest)) i
  | choice {rules : List (Rule α)} {r : Rule α} {i : Nat} (hr : r ∈ rules) (h : First g r i) :
    First g (.choice rules) i
  | optional {rule : Rule α} {i : Nat} (h : First g rule i) : First g (.optional rule) i
  | repetition (b : Bounds) {rule : Rule α} {i : Nat} (h : First g rule i) :
    First g (.repetition b rule) i

variable [Symbol α] {g : Grammar (Rule α)} {rule : Rule α}

theorem keepsContract_of_plain (hg : g.Plain) (hrule : rule.Plain) (fuel : Nat) :
    Script.KeepsContract (apply g fuel) (fun _ => True) rule :=
  apply_keepsContract (fun _ hc => hc.elim) hg fuel rule hrule fun _ _ => trivial

/-- **A rule moves on** whenever it matches, unless it is one of those that can match nothing. -/
theorem nullable_of_matchesNothing (hg : g.Plain) : ∀ (fuel : Nat) (rule : Rule α), rule.Plain →
    Script.MatchesNothing (apply g fuel) rule → Nullable g rule
  | 0, _, _, ⟨_, _, _, _, h, _⟩ => nomatch h
  | fuel + 1, rule, hrule, ⟨s, span, t, hs, h, hstay⟩ => by
    have ha : ∀ r s o t, apply g fuel r s = some (o, t) → Steps s t :=
      fun _ _ _ _ => steps_of_apply g
    have ih := nullable_of_matchesNothing hg fuel
    rw [apply_succ] at h
    cases hrule with
    | symbol | oneOf | range =>
      have hmoves := Script.position_of_acceptIf hs h
      omega
    | endOfInput => exact .endOfInput
    | caseless expected =>
      have hmoves : t.position = s.position + (expected.map Symbol.sameButCase).length :=
        Script.position_of_acceptAll (u := s.pushMark) hs.pushMark h
      rw [List.length_map] at hmoves
      obtain rfl : expected = [] := List.length_eq_zero_iff.mp (by omega)
      exact .caseless
    | concat hr =>
      refine .concat fun r hmem => ih r (hr r hmem) ?_
      exact (Script.matchesNothing_of_applyAll ha hs.pushMark
        (fun r hmem => keepsContract_of_plain hg (hr r hmem) fuel) h).2 hstay r hmem
    | choice hr =>
      obtain ⟨r, hmem, hnothing⟩ := Script.matchesNothing_of_choice ha hs
        (fun r hmem => keepsContract_of_plain hg (hr r hmem) fuel) h hstay
      exact .choice hmem (ih r (hr r hmem) hnothing)
    | optional => exact .optional _
    | repetition b hr =>
      by_cases hmin : b.min = 0
      · exact .noRound hmin _
      · simp only [script, Script.repetition] at h
        split at h
        · exact .repetition b (ih _ hr ((Script.matchesNothing_of_rounds ha
            (keepsContract_of_plain hg hr fuel) hs.pushMark h).2 hstay (by omega)))
        · cases h
    | nonterminal n =>
      simp only [script] at h
      cases hb : g.body? n with
      | none =>
        rw [hb] at h
        cases h
      | some body =>
        rw [hb] at h
        exact .nonterminal hb (ih body (hg n body hb) ⟨s, span, t, hs, apply_of_run_apply h, hstay⟩)
    | custom hc => exact hc.elim

/-! ### Applications that end -/

/-- Every application ends with so many symbols ahead. -/
def HaltsAt (g : Grammar (Rule α)) (k : Nat) (rule : Rule α) : Prop :=
  ∀ s : Scanner α, s.Ordered → s.ahead = k → ∃ fuel x, rule.apply g fuel s = some x

section Combinators

variable {k : Nat} {rules : List (Rule α)} {u : Scanner α}

theorem ahead_of_noMatch (hg : g.Plain) (hrule : rule.Plain) {fuel : Nat} {v : Scanner α}
    (hu : u.Ordered) (hv : rule.apply g fuel u = some (.noMatch, v)) : v.ahead = u.ahead := by
  have hback := (plain_keepsContract hg hrule fuel _ _ _ hu hv).1.1
  have hahead := ahead_steps hu (steps_of_apply g hv)
  omega

theorem ahead_of_matched (hg : g.Plain) (hrule : rule.Plain) {fuel : Nat} {v : Scanner α}
    {span : Span} (hu : u.Ordered) (hv : rule.apply g fuel u = some (.matched span, v)) :
    span = ⟨u.position, v.position⟩ ∧ u.position ≤ v.position ∧
      v.ahead + v.position = u.ahead + u.position := by
  have hc := (plain_keepsContract hg hrule fuel _ _ _ hu hv).1
  exact ⟨hc.span_eq, hc.position_le, ahead_steps hu (steps_of_apply g hv)⟩

/-- The rest of a concatenation, behind rules that have consumed something or can match nothing. -/
theorem halts_applyAll (hg : g.Plain) : ∀ (rules : List (Rule α)) (u : Scanner α),
    (∀ r ∈ rules, r.Plain) → (∀ j < k, ∀ r ∈ rules, HaltsAt g j r) →
    (∀ r ∈ rules, (∀ n : Nonterminal, First g r n.id → HaltsAt g k (.nonterminal n)) →
      HaltsAt g k r) →
    u.Ordered → u.ahead ≤ k → (u.ahead = k → ∀ n : Nonterminal, First g (.concat rules) n.id →
      HaltsAt g k (.nonterminal n)) →
    Script.Halts g (.applyAll rules) u
  | [], u, _, _, _, _, _, _ => Script.direct_accept.halts u
  | rule :: rest, u, hplain, hbelow, hat, hu, hle, hfirst => by
    have hrule := hplain rule List.mem_cons_self
    have hhalts : HaltsAt g u.ahead rule := by
      rcases hle.lt_or_eq with hlt | heq
      · exact hbelow _ hlt rule List.mem_cons_self
      · rw [heq]
        exact hat rule List.mem_cons_self fun n hn => hfirst heq n (.concatHead hn)
    obtain ⟨fuel, ⟨o, v⟩, hv⟩ := hhalts u hu rfl
    refine Script.halts_attempt hv ?_ fun _ => Script.direct_reject.halts v
    rintro span rfl
    obtain ⟨-, hmove, hahead⟩ := ahead_of_matched hg hrule hu hv
    refine halts_applyAll hg rest v (fun r hmem => hplain r (List.mem_cons_of_mem _ hmem))
      (fun j hj r hmem => hbelow j hj r (List.mem_cons_of_mem _ hmem))
      (fun r hmem => hat r (List.mem_cons_of_mem _ hmem)) (hu.steps (steps_of_apply g hv))
      (by omega) fun heq n hn => ?_
    -- Nothing was consumed so far, so the rule can match nothing.
    have hnothing := nullable_of_matchesNothing hg fuel rule hrule
      ⟨u, span, v, hu, hv, by omega⟩
    exact hfirst (by omega) n (.concatTail hnothing hn)

theorem halts_choice (hg : g.Plain) : ∀ (rules : List (Rule α)) (u : Scanner α),
    (∀ r ∈ rules, r.Plain) → (∀ r ∈ rules, HaltsAt g k r) → u.Ordered → u.ahead = k →
    Script.Halts g (.choice rules) u
  | [], _, _, _, _, _ => ⟨0, _, rfl⟩
  | rule :: rest, u, hplain, hat, hu, hk => by
    obtain ⟨fuel, ⟨o, v⟩, hv⟩ := hat rule List.mem_cons_self u hu hk
    refine Script.halts_attempt hv (fun _ _ => ⟨0, _, rfl⟩) ?_
    rintro rfl
    have hback := ahead_of_noMatch hg (hplain rule List.mem_cons_self) hu hv
    exact halts_choice hg rest v (fun r hmem => hplain r (List.mem_cons_of_mem _ hmem))
      (fun r hmem => hat r (List.mem_cons_of_mem _ hmem)) (hu.steps (steps_of_apply g hv))
      (hback.trans hk)

/-- **Rounds come to an end**: each but the last consumes something. -/
theorem haltsRounds (hg : g.Plain) (hrule : rule.Plain) {b : Bounds}
    (hhalts : ∀ j ≤ k, HaltsAt g j rule) : ∀ (count : Nat) (u : Scanner α), u.Ordered →
      u.ahead ≤ k → Script.HaltsRounds g b rule count u := by
  intro count u hu hle
  induction hj : u.ahead using Nat.strongRecOn generalizing count u with
  | ind j ih =>
    by_cases hmore : b.allowMore count
    · obtain ⟨fuel, ⟨o, v⟩, hv⟩ := hhalts _ hle u hu rfl
      refine Script.haltsRounds_of_apply hmore hv ?_
      rintro span rfl hempty
      obtain ⟨rfl, hmove, hahead⟩ := ahead_of_matched hg hrule hu hv
      have hne : u.position ≠ v.position := fun heq => hempty (by simp [heq])
      exact ih v.ahead (by omega) (count + 1) v (hu.steps (steps_of_apply g hv)) (by omega) rfl
    · exact Script.haltsRounds_of_not_allowMore (by simpa using hmore) u

end Combinators

/-- **What a rule needs to end** where all rules end with fewer symbols ahead: that the nonterminals
that stand first in it do.  One case for each constructor. -/
theorem haltsAt_of_first (hg : g.Plain) {k : Nat}
    (hbelow : ∀ j < k, ∀ r : Rule α, r.Plain → HaltsAt g j r) (hrule : rule.Plain) :
    (∀ n : Nonterminal, First g rule n.id → HaltsAt g k (.nonterminal n)) → HaltsAt g k rule := by
  induction hrule with
  | symbol | oneOf | range =>
    exact fun _ s _ _ => apply_of_halts (fun _ => rfl) ((Script.direct_acceptIf _).halts s)
  | endOfInput =>
    exact fun _ s _ _ => apply_of_halts (fun _ => rfl) (Script.direct_endOfInput.halts s)
  | caseless expected =>
    intro _ s _ _
    have hdirect : (Script.acceptRun (expected.map Symbol.sameButCase) : Script (Rule α) α).Direct :=
      Script.direct_acceptAll _
    exact apply_of_halts (fun _ => rfl) (hdirect.halts s)
  | @concat rules hplain ih =>
    intro hfirst s hs hk
    obtain ⟨fuel, x, hx⟩ := halts_applyAll hg rules s.pushMark hplain
      (fun j hj r hmem => hbelow j hj r (hplain r hmem)) ih hs.pushMark hk.le fun _ => hfirst
    exact ⟨fuel + 1, x, hx⟩
  | @choice rules hplain ih =>
    intro hfirst s hs hk
    refine apply_of_halts (fun _ => rfl) (halts_choice hg rules s hplain (fun r hmem => ?_) hs hk)
    exact ih r hmem fun n hn => hfirst n (.choice hmem hn)
  | optional hplain ih =>
    intro hfirst s hs hk
    obtain ⟨fuel, ⟨o, v⟩, hv⟩ := ih (fun n hn => hfirst n (.optional hn)) s hs hk
    have hattempt : Script.Halts g (.attempt _ (fun span => .answer (.matched span))
        (.answer (.matched (Span.empty s.view.position)))) s :=
      Script.halts_attempt hv (fun _ _ => ⟨0, _, rfl⟩) fun _ => ⟨0, _, rfl⟩
    obtain ⟨m, x, hx⟩ := hattempt
    exact ⟨m + 1, x, hx⟩
  | @repetition b rule hplain ih =>
    intro hfirst s hs hk
    by_cases hb : b.inOrder
    · have hhalts : ∀ j ≤ k, HaltsAt g j rule := by
        intro j hj
        rcases hj.lt_or_eq with hlt | rfl
        · exact hbelow j hlt rule hplain
        · exact ih fun n hn => hfirst n (.repetition b hn)
      obtain ⟨fuel, x, hx⟩ := haltsRounds hg hplain (b := b) hhalts 0 s.pushMark hs.pushMark hk.le
      exact ⟨fuel + 1, x, by simp only [apply_succ, script, Script.repetition, hb, if_true]; exact hx⟩
    · exact ⟨1, (.noMatch, s), by simp only [apply_succ, script, Script.repetition, hb]; rfl⟩
  | nonterminal n => exact fun hfirst => hfirst n (.nonterminal n)
  | custom hc => exact hc.elim

/-- **Without left recursion, every application ends.** -/
theorem haltsAt (hg : g.Plain) (hrec : ¬ g.LeftRecursive (First g)) (k : Nat) :
    ∀ rule : Rule α, rule.Plain → HaltsAt g k rule := by
  refine Grammar.forall_of_calls .nonterminal hrec hg (fun k rule hrule hbelow => ?_)
    (fun k n hbody => ?_) k
  · exact haltsAt_of_first hg hbelow hrule
  · intro s hs hk
    cases hb : g.body? n with
    | none =>
      exact ⟨1, (.failed (.unresolvedRule _), _), by simp only [apply_succ, script, hb]; rfl⟩
    | some body =>
      obtain ⟨fuel, x, hx⟩ := hbody body hb s hs hk
      refine ⟨fuel + 1, x, ?_⟩
      simp only [apply_succ, script, hb, Script.run, hx]

end Rule

end Abnf
