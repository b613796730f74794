import Abnf.Proofs.Definition
import Abnf.Proofs.Sight
import Abnf.Rule.Core
import Mathlib.Computability.Language

/-!
# Abnf.Proofs.LinearSpace — linear white space is matched as far as it goes

White space may be folded, that is, stand behind the end of a line.  What an input begins with decides
which of the two it is, if any, so that a word of the language `linearSpace` can be taken apart in one
way only (`Fold.unique`), and a greedy match is a longest one (`Longest.append`).  A line end that is
not followed by white space is read, together with the symbol behind it, and given back.

* `Rule.readsTo_lwsp`: what the rule comes to at a position, and how far it reads for that.
* `Rule.lwsp_longest`: over a scanner.
-/

namespace Abnf

open Scanner
open scoped Computability

/-! ### The language -/

/-- White space is a space or a tab. -/
def whiteSpace : Language Char := {[' '], ['\t']}

/-- Linear white space: `*(WSP / CRLF WSP)`. -/
def linearSpace : Language Char := (whiteSpace + {['\r', '\n']} * whiteSpace)∗

/-- The longest word of the language that the input begins with has the length `k`. -/
structure Longest {α : Type} (L : Language α) (input : List α) (k : Nat) : Prop where
  le_length : k ≤ input.length
  mem : input.take k ∈ L
  greatest : ∀ m ≤ input.length, input.take m ∈ L → m ≤ k

theorem mem_whiteSpace_iff {w : List Char} : w ∈ whiteSpace ↔ ∃ c, (c = ' ' ∨ c = '\t') ∧ w = [c] := by
  constructor
  · rintro (rfl | rfl)
    · exact ⟨' ', .inl rfl, rfl⟩
    · exact ⟨'\t', .inr rfl, rfl⟩
  · rintro ⟨c, rfl | rfl, rfl⟩
    · exact .inl rfl
    · exact .inr rfl

/-- White space, alone or behind the end of a line. -/
inductive Fold : List Char → Prop
  | blank {c : Char} (hc : c = ' ' ∨ c = '\t') : Fold [c]
  | folded {c : Char} (hc : c = ' ' ∨ c = '\t') : Fold ['\r', '\n', c]

theorem fold_iff {u : List Char} : u ∈ whiteSpace + {['\r', '\n']} * whiteSpace ↔ Fold u := by
  rw [Language.mem_add, mem_whiteSpace_iff, Language.mem_mul]
  constructor
  · rintro (⟨c, hc, rfl⟩ | ⟨a, rfl, b, hb, rfl⟩)
    · exact .blank hc
    · obtain ⟨c, hc, rfl⟩ := mem_whiteSpace_iff.mp hb
      exact .folded hc
  · rintro (hc | hc)
    · exact .inl ⟨_, hc, rfl⟩
    · exact .inr ⟨_, rfl, _, mem_whiteSpace_iff.mpr ⟨_, hc, rfl⟩, rfl⟩

theorem mem_linearSpace_iff {w : List Char} :
    w ∈ linearSpace ↔ w = [] ∨ ∃ u v, Fold u ∧ v ∈ linearSpace ∧ w = u ++ v := by
  rw [linearSpace, ← Language.one_add_self_mul_kstar_eq_kstar, Language.mem_add, Language.mem_one,
    Language.mem_mul, Language.one_add_self_mul_kstar_eq_kstar]
  simp only [fold_iff]
  constructor
  · rintro (rfl | ⟨u, hu, v, hv, rfl⟩)
    · exact .inl rfl
    · exact .inr ⟨u, v, hu, hv, rfl⟩
  · rintro (rfl | ⟨u, v, hu, hv, rfl⟩)
    · exact .inl rfl
    · exact .inr ⟨u, hu, v, hv, rfl⟩

namespace Fold

variable {u v r r' : List Char}

theorem length_pos (h : Fold u) : 0 < u.length := by
  cases h <;> exact Nat.succ_pos _

/-- What an input begins with is white space in one way only. -/
theorem unique (hu : Fold u) (hv : Fold v) (h : u ++ r = v ++ r') : u = v ∧ r = r' := by
  cases hu with
  | blank hc =>
    cases hv with
    | blank => simpa using h
    | folded =>
      obtain ⟨rfl, -⟩ := List.cons.inj h
      simp at hc
  | folded hc =>
    cases hv with
    | blank hc' =>
      obtain ⟨rfl, -⟩ := List.cons.inj h
      simp at hc'
    | folded => simpa using h

end Fold

namespace Longest

variable {input rest u : List Char} {k : Nat}

/-- White space in front makes the longest word longer by just as much. -/
theorem append (h : Longest linearSpace rest k) (hu : Fold u) :
    Longest linearSpace (u ++ rest) (u.length + k) := by
  refine ⟨?_, ?_, fun m hm hmem => ?_⟩
  · rw [List.length_append]
    exact Nat.add_le_add_left h.le_length _
  · rw [List.take_length_add_append]
    exact mem_linearSpace_iff.mpr (.inr ⟨u, _, hu, h.mem, rfl⟩)
  · rcases mem_linearSpace_iff.mp hmem with hnil | ⟨v, w, hv, hw, htake⟩
    · have hlength := congrArg List.length hnil
      rw [List.length_take_of_le hm] at hlength
      exact hlength.le.trans (Nat.zero_le _)
    · have hinput : u ++ rest = v ++ (w ++ (u ++ rest).drop m) := by
        rw [← List.append_assoc, ← htake, List.take_append_drop]
      obtain ⟨rfl, hrest⟩ := hu.unique hv hinput
      have hlength := congrArg List.length htake
      rw [List.length_take_of_le hm, List.length_append] at hlength
      have hle : w.length ≤ k := by
        refine h.greatest _ ?_ ?_
        · rw [hrest, List.length_append]
          exact Nat.le_add_right _ _
        · rw [hrest, List.take_left]
          exact hw
      omega

theorem zero (h : ∀ u rest, Fold u → input ≠ u ++ rest) : Longest linearSpace input 0 := by
  refine ⟨Nat.zero_le _, mem_linearSpace_iff.mpr (.inl rfl), fun m hm hmem => ?_⟩
  rcases mem_linearSpace_iff.mp hmem with hnil | ⟨v, w, hv, -, htake⟩
  · have hlength := congrArg List.length hnil
    rw [List.length_take_of_le hm] at hlength
    exact hlength.le
  · refine absurd ?_ (h v (w ++ input.drop m) hv)
    rw [← List.append_assoc, ← htake, List.take_append_drop]

/-- Behind the longest word there is none but the empty one. -/
theorem drop (h : Longest linearSpace input k) : Longest linearSpace (input.drop k) 0 := by
  refine ⟨Nat.zero_le _, mem_linearSpace_iff.mpr (.inl rfl), fun m hm hmem => ?_⟩
  rw [List.length_drop] at hm
  have hboth : input.take (k + m) ∈ linearSpace := by
    rw [List.take_add, linearSpace, ← kstar_mul_kstar]
    exact Language.append_mem_mul h.mem hmem
  have hle := h.greatest (k + m) (by have := h.le_length; omega) hboth
  omega

end Longest

/-- A carriage return in linear white space is followed by a line feed and white space. -/
theorem folded_of_mem_linearSpace {w : List Char} {i : Nat} (h : w ∈ linearSpace)
    (hi : w[i]? = some '\r') : w[i + 1]? = some '\n' ∧ ∃ c, [c] ∈ whiteSpace ∧ w[i + 2]? = some c := by
  induction hn : w.length using Nat.strongRecOn generalizing w i with
  | ind n ih =>
    rcases mem_linearSpace_iff.mp h with rfl | ⟨u, v, hu, hv, rfl⟩
    · cases hi
    have hlength : v.length < n := by
      rw [← hn, List.length_append]
      exact Nat.lt_add_of_pos_left hu.length_pos
    by_cases hlt : i < u.length
    · -- The first symbol of a fold is the only one that can be a carriage return.
      cases hu with
      | @blank c hc =>
        obtain rfl : i = 0 := by simpa using hlt
        obtain rfl : c = '\r' := by simpa using hi
        simp at hc
      | @folded c hc =>
        obtain rfl | rfl | rfl : i = 0 ∨ i = 1 ∨ i = 2 := by
          simp only [List.length_cons, List.length_nil] at hlt
          omega
        · exact ⟨rfl, c, mem_whiteSpace_iff.mpr ⟨c, hc, rfl⟩, rfl⟩
        · simp at hi
        · obtain rfl : c = '\r' := by simpa using hi
          simp at hc
    · obtain ⟨j, rfl⟩ := Nat.exists_eq_add_of_le (Nat.le_of_not_lt hlt)
      have hbehind (k : Nat) : (u ++ v)[u.length + k]? = v[k]? := by
        rw [List.getElem?_append_right (Nat.le_add_right _ _), Nat.add_sub_cancel_left]
      rw [hbehind] at hi
      rw [Nat.add_assoc, Nat.add_assoc, hbehind, hbehind]
      exact ih _ hlength hv hi rfl

/-! ### Outcomes and how far is read for them -/

namespace Rule

variable {α : Type} [Symbol α] {g : Grammar (Rule α)} {input : List α} {rule first : Rule α}
  {rest : List (Rule α)} {b : Bounds} {p m n : Nat} {o : Outcome}

/-- The rule comes to the outcome, and reads the input no further than `n` for it. -/
structure ReadsTo (g : Grammar (Rule α)) (input : List α) (n : Nat) (rule : Rule α) (p : Nat)
    (o : Outcome) : Prop where
  plain : rule.Plain
  comesTo : rule.ComesTo g input p o
  sees : ∃ e ≤ n, RestSees g input rule p e

theorem readsTo_symbol {a : α} (ha : input[p]? = some a) (hn : p + 1 ≤ n) :
    ReadsTo g input n (.symbol a) p (.matched ⟨p, p + 1⟩) :=
  ⟨.symbol a, .symbol ha, _, (Nat.min_le_left _ _).trans hn,
    (sees_iff_script fun _ => rfl).mpr (Script.sees_acceptIf _)⟩

theorem readsTo_symbolElse {a : α} (ha : input[p]? ≠ some a) (hn : p + 1 ≤ n) :
    ReadsTo g input n (.symbol a) p .noMatch :=
  ⟨.symbol a, .symbolElse ha, _, (Nat.min_le_left _ _).trans hn,
    (sees_iff_script fun _ => rfl).mpr (Script.sees_acceptIf _)⟩

theorem readsTo_concatNil : ReadsTo g input n (.concat []) p (.matched ⟨p, p⟩) :=
  ⟨by simp, .concatNil, 0, Nat.zero_le _, restSees_nil⟩

theorem readsTo_choiceNil : ReadsTo g input n (.choice []) p .noMatch :=
  ⟨by simp, .choiceNil, 0, Nat.zero_le _, (sees_iff_script fun _ => rfl).mpr (Script.sees_answer _)⟩

namespace ReadsTo

variable (hg : g.Plain)
include hg

theorem concatCons (h : ReadsTo g input n first p (.matched ⟨p, m⟩))
    (hrest : ReadsTo g input n (.concat rest) m o) :
    ReadsTo g input n (.concat (first :: rest)) p (o.since p) := by
  obtain ⟨e, he, hsees⟩ := h.sees
  obtain ⟨e', he', hsees'⟩ := hrest.sees
  refine ⟨?_, .concatCons h.comesTo hrest.comesTo, max e e', max_le he he',
    restSees_concat_cons hg h.plain hsees.sees h.comesTo hsees'⟩
  simpa [h.plain] using hrest.plain

theorem concatElse (h : ReadsTo g input n first p .noMatch) (hrest : (concat rest).Plain) :
    ReadsTo g input n (.concat (first :: rest)) p .noMatch := by
  obtain ⟨e, he, hsees⟩ := h.sees
  refine ⟨?_, .concatElse h.comesTo nofun, e, he,
    restSees_concat_else hg h.plain hsees.sees h.comesTo nofun⟩
  simpa [h.plain] using hrest

theorem choiceFirst (h : ReadsTo g input n first p (.matched ⟨p, m⟩)) (hrest : (choice rest).Plain) :
    ReadsTo g input n (.choice (first :: rest)) p (.matched ⟨p, m⟩) := by
  obtain ⟨e, he, hsees⟩ := h.sees
  refine ⟨?_, .choiceFirst h.comesTo nofun, max e 0, max_le he (Nat.zero_le _), ?_⟩
  · simpa [h.plain] using hrest
  · exact (sees_iff_script fun _ => rfl).mpr
      (Script.sees_attempt_matched hg h.plain hsees.sees h.comesTo (Script.sees_answer _))

theorem choiceNext (h : ReadsTo g input n first p .noMatch)
    (hrest : ReadsTo g input n (.choice rest) p o) :
    ReadsTo g input n (.choice (first :: rest)) p o := by
  obtain ⟨e, he, hsees⟩ := h.sees
  obtain ⟨e', he', hsees'⟩ := hrest.sees
  refine ⟨?_, .choiceNext h.comesTo hrest.comesTo, max e e', max_le he he', ?_⟩
  · simpa [h.plain] using hrest.plain
  · exact (sees_iff_script fun _ => rfl).mpr (Script.sees_attempt_noMatch hg h.plain hsees.sees
      h.comesTo ((sees_iff_script fun _ => rfl).mp hsees'))

theorem round (h : ReadsTo g input n rule p (.matched ⟨p, m⟩)) (hb : b.inOrder)
    (hmax : b.max ≠ some 0) (hm : m ≠ p)
    (hrest : ReadsTo g input n (.repetition (b.after 1) rule) m o) :
    ReadsTo g input n (.repetition b rule) p (o.since p) := by
  obtain ⟨e, he, hsees⟩ := h.sees
  obtain ⟨e', he', hsees'⟩ := hrest.sees
  exact ⟨.repetition b h.plain, .round hb hmax h.comesTo hm hrest.comesTo, max e e', max_le he he',
    restSees_round hg h.plain hsees.sees hb hmax h.comesTo hm hsees'⟩

theorem enough (h : ReadsTo g input n rule p .noMatch) (hb : b.inOrder) (hmax : b.max ≠ some 0)
    (hmin : b.min = 0) : ReadsTo g input n (.repetition b rule) p (.matched ⟨p, p⟩) := by
  obtain ⟨e, he, hsees⟩ := h.sees
  exact ⟨.repetition b h.plain, .enough hb hmax h.comesTo hmin, e, he,
    restSees_lastRound hg h.plain hsees.sees hb hmax h.comesTo nofun⟩

end ReadsTo

end Rule

/-! ### The rule -/

namespace Rule

variable {g : Grammar (Rule Char)} {input behind u : List Char} {p k n : Nat}

section

variable (hg : g.Plain)
include hg

theorem readsTo_wsp {c : Char} (hc : c = ' ' ∨ c = '\t') (h : input[p]? = some c) (hn : p + 1 ≤ n) :
    ReadsTo g input n Core.wsp p (.matched ⟨p, p + 1⟩) := by
  rcases hc with rfl | rfl
  · exact (readsTo_symbol h hn).choiceFirst hg (by simp [Core.htab])
  · exact (readsTo_symbolElse (by simp [h]) hn).choiceNext hg
      ((readsTo_symbol h hn).choiceFirst hg (by simp))

theorem readsTo_wspElse (h : ∀ c, c = ' ' ∨ c = '\t' → input[p]? ≠ some c) (hn : p + 1 ≤ n) :
    ReadsTo g input n Core.wsp p .noMatch :=
  (readsTo_symbolElse (h ' ' (.inl rfl)) hn).choiceNext hg
    ((readsTo_symbolElse (h '\t' (.inr rfl)) hn).choiceNext hg readsTo_choiceNil)

theorem readsTo_crlf (hcr : input[p]? = some '\r') (hlf : input[p + 1]? = some '\n')
    (hn : p + 2 ≤ n) : ReadsTo g input n Core.crlf p (.matched ⟨p, p + 2⟩) :=
  (readsTo_symbol hcr (by omega)).concatCons hg
    ((readsTo_symbol hlf hn).concatCons hg readsTo_concatNil)

theorem readsTo_crlfElse (h : input[p]? = some '\r' → input[p + 1]? ≠ some '\n') (hn : p + 2 ≤ n) :
    ReadsTo g input n Core.crlf p .noMatch := by
  by_cases hcr : input[p]? = some '\r'
  · exact (readsTo_symbol hcr (by omega)).concatCons hg
      ((readsTo_symbolElse (h hcr) hn).concatElse hg (by simp))
  · exact (readsTo_symbolElse hcr (by omega)).concatElse hg (by simp [Core.lf])

/-- One round of linear white space. -/
theorem readsTo_fold (hu : Fold u) (h : u <+: input.drop p) (hn : p + u.length ≤ n) :
    ReadsTo g input n (.choice [Core.wsp, .concat [Core.crlf, Core.wsp]]) p
      (.matched ⟨p, p + u.length⟩) := by
  cases hu with
  | blank hc =>
    have hfirst := (cons_prefix_drop_iff.mp h).1
    exact (readsTo_wsp hg hc hfirst hn).choiceFirst hg
      (by simp [Core.crlf, Core.cr, Core.lf, Core.wsp, Core.sp, Core.htab])
  | @folded c hc =>
    obtain ⟨hcr, h⟩ := cons_prefix_drop_iff.mp h
    obtain ⟨hlf, h⟩ := cons_prefix_drop_iff.mp h
    have hblank := (cons_prefix_drop_iff.mp h).1
    have hn' : p + 3 ≤ n := hn
    have hwsp : ReadsTo g input n Core.wsp p .noMatch := by
      refine readsTo_wspElse hg ?_ (by omega)
      rintro c (rfl | rfl) <;> simp [hcr]
    have hfolded : ReadsTo g input n (.concat [Core.crlf, Core.wsp]) p (.matched ⟨p, p + 3⟩) :=
      (readsTo_crlf hg hcr hlf (by omega)).concatCons hg
        ((readsTo_wsp hg hc hblank (by omega)).concatCons hg readsTo_concatNil)
    exact hwsp.choiceNext hg (hfolded.choiceFirst hg (by simp))

/-- A line end without white space behind it is no round, though it is read. -/
theorem readsTo_foldElse (h : ∀ u, Fold u → ¬ u <+: input.drop p) (hn : p + 3 ≤ n) :
    ReadsTo g input n (.choice [Core.wsp, .concat [Core.crlf, Core.wsp]]) p .noMatch := by
  have hblank : ∀ c, c = ' ' ∨ c = '\t' → input[p]? ≠ some c := fun c hc hfirst =>
    h [c] (.blank hc) (cons_prefix_drop_iff.mpr ⟨hfirst, List.nil_prefix⟩)
  refine (readsTo_wspElse hg hblank (by omega)).choiceNext hg (.choiceNext hg ?_ readsTo_choiceNil)
  by_cases hend : input[p]? = some '\r' ∧ input[p + 1]? = some '\n'
  · obtain ⟨hcr, hlf⟩ := hend
    have hbehind : ∀ c, c = ' ' ∨ c = '\t' → input[p + 2]? ≠ some c := fun c hc hblank =>
      h _ (.folded hc) (cons_prefix_drop_iff.mpr ⟨hcr, cons_prefix_drop_iff.mpr ⟨hlf,
        cons_prefix_drop_iff.mpr ⟨hblank, List.nil_prefix⟩⟩⟩)
    exact (readsTo_crlf hg hcr hlf (by omega)).concatCons hg
      ((readsTo_wspElse hg hbehind hn).concatElse hg (by simp))
  · exact (readsTo_crlfElse hg (fun hcr hlf => hend ⟨hcr, hlf⟩) (by omega)).concatElse hg
      (by simp [Core.wsp, Core.sp, Core.htab])

/-- By induction on what stands behind the position, which each round makes shorter. -/
theorem readsTo_lwsp (input : List Char) (p : Nat) :
    ∃ k, Longest linearSpace (input.drop p) k ∧
      ReadsTo g input (p + k + 3) Core.lwsp p (.matched ⟨p, p + k⟩) := by
  induction hlength : (input.drop p).length using Nat.strongRecOn generalizing p with
  | ind length ih =>
    by_cases h : ∃ u rest, Fold u ∧ input.drop p = u ++ rest
    · obtain ⟨u, rest, hu, hrest⟩ := h
      have hpos := hu.length_pos
      have hdrop : input.drop (p + u.length) = rest := by
        rw [← List.drop_drop, hrest, List.drop_left]
      have hshorter : (input.drop (p + u.length)).length < length := by
        rw [← hlength, hdrop, hrest, List.length_append]
        omega
      obtain ⟨k, hlongest, hreads⟩ := ih _ hshorter (p + u.length) rfl
      have hround := readsTo_fold (n := p + u.length + k + 3) hg hu ⟨rest, hrest.symm⟩ (by omega)
      refine ⟨u.length + k, ?_, ?_⟩
      · rw [hrest, ← hdrop]
        exact hlongest.append hu
      · rw [← Nat.add_assoc]
        exact hround.round (b := .atLeast 0) hg rfl nofun (by omega) hreads
    · have hnone : ∀ u, Fold u → ¬ u <+: input.drop p := by
        rintro u hu ⟨rest, hrest⟩
        exact h ⟨u, rest, hu, hrest.symm⟩
      refine ⟨0, .zero fun u rest hu hrest => h ⟨u, rest, hu, hrest⟩, ?_⟩
      exact (readsTo_foldElse hg hnone (Nat.le_refl _)).enough hg rfl nofun rfl

end

/-- Whatever else the grammar has, an application ends where the longest white space does. -/
theorem apply_lwsp (g : Grammar (Rule Char)) {s : Scanner Char} (hs : s.At input p)
    (h : Longest linearSpace (input.drop p) k) :
    ∃ enough t, (∀ fuel ≥ enough, Core.lwsp.apply g fuel s = some (.matched ⟨p, p + k⟩, t)) ∧
      t.At input (p + k) ∧ t.marks = s.marks ∧ t.buffer.size ≤ max s.buffer.size (p + k + 3) := by
  have hg : Grammar.Plain (.empty : Grammar (Rule Char)) := fun _ _ hb => nomatch hb
  have hkept : Grammar.KeptIn .empty g := fun _ _ hb => nomatch hb
  obtain ⟨k', hlongest, hplain, hcomes, e, he, hsees⟩ := readsTo_lwsp hg input p
  obtain rfl : k' = k := Nat.le_antisymm (h.greatest _ hlongest.le_length hlongest.mem)
    (hlongest.greatest _ h.le_length h.mem)
  obtain ⟨enough, t, happly⟩ := apply_of_comesTo hg hplain hcomes hs
  refine ⟨enough, t, fun fuel hfuel => ?_, ?_, ?_, ?_⟩
  · exact apply_mono g hfuel _ _ _ (apply_of_keptIn hkept (plainIn_of_plain hg hplain) happly)
  · exact (at_of_apply hg hplain hcomes hs happly).2.1 _ rfl
  · exact (plain_keepsContract hg hplain enough s _ t hs.ordered happly).1.1
  · rw [hsees.sees enough s _ t hs happly]
    exact max_le_max le_rfl he

/-- **Linear white space is matched as far as it goes.**  Over an input, whatever part of it is buffered
and whatever marks are set, the rule matches, and what it matches is the longest word of `linearSpace`
at the scanner's position.  So a carriage return is consumed only with a line feed and white space
behind it.  The marks are as before; no more is buffered than three symbols beyond the match, unless it
was before; and applied once more, the rule matches nothing. -/
theorem lwsp_longest (g : Grammar (Rule Char)) {s : Scanner Char} (hs : s.Ordered)
    (hin : s.Reads input) :
    ∃ k enough t,
      (∀ fuel ≥ enough, Core.lwsp.apply g fuel s =
        some (.matched ⟨s.position, s.position + k⟩, t)) ∧
      Longest linearSpace (input.drop s.position) k ∧
      (∀ i < k, input[s.position + i]? = some '\r' →
        i + 2 < k ∧ input[s.position + i + 1]? = some '\n' ∧
          ∃ c, [c] ∈ whiteSpace ∧ input[s.position + i + 2]? = some c) ∧
      t.position = s.position + k ∧ t.marks = s.marks ∧
      t.buffer.size ≤ max s.buffer.size (s.position + k + 3) ∧
      ∃ enough' u, ∀ fuel ≥ enough', Core.lwsp.apply g fuel t =
        some (.matched ⟨s.position + k, s.position + k⟩, u) := by
  have hg : Grammar.Plain (.empty : Grammar (Rule Char)) := fun _ _ hb => nomatch hb
  obtain ⟨k, hlongest, -⟩ := readsTo_lwsp hg input s.position
  obtain ⟨enough, t, happly, ht, hmarks, hsize⟩ := apply_lwsp g ⟨hs, hin, rfl⟩ hlongest
  have hagain : Longest linearSpace (input.drop (s.position + k)) 0 := by
    rw [← List.drop_drop]
    exact hlongest.drop
  obtain ⟨enough', u, happly', -⟩ := apply_lwsp g ht hagain
  refine ⟨k, enough, t, happly, hlongest, fun i hi hcr => ?_, ht.position, hmarks, hsize, enough', u,
    happly'⟩
  have hword (j : Nat) : ((input.drop s.position).take k)[j]? =
      if j < k then input[s.position + j]? else none := by
    rw [List.getElem?_take, List.getElem?_drop]
  obtain ⟨hlf, c, hc, hblank⟩ := folded_of_mem_linearSpace (i := i) hlongest.mem
    (by rw [hword, if_pos hi, hcr])
  rw [hword, Option.ite_none_right_eq_some] at hlf hblank
  exact ⟨hblank.1, hlf.2, c, hc, hblank.2⟩

/-- Behind the match stands a line end without white space, which is read and not consumed. -/
theorem lwsp_longest_of_folded_line :
    ∃ t : Scanner Char,
      Core.lwsp.apply .empty 12 ⟨#['a'], .ofList " \t\r\n \r\nx".toList, [1, 0], 1, #[]⟩ =
        some (.matched ⟨1, 6⟩, t) ∧
      t.position = 6 ∧ t.marks = [1, 0] ∧ t.buffer.size = 9 ∧
      Longest linearSpace " \t\r\n \r\nx".toList 5 := by
  have hs : Ordered (⟨#['a'], .ofList " \t\r\n \r\nx".toList, [1, 0], 1, #[]⟩ : Scanner Char) :=
    ⟨by simp, by simp, by simp⟩
  have hin : Reads (⟨#['a'], .ofList " \t\r\n \r\nx".toList, [1, 0], 1, #[]⟩ : Scanner Char)
      "a \t\r\n \r\nx".toList :=
    ⟨" \t\r\n \r\nx".toList, rfl, Source.delivers_ofList _⟩
  obtain ⟨k, enough, t, happly, hlongest, -, hposition, hmarks, -⟩ := lwsp_longest .empty hs hin
  have hrun : Core.lwsp.apply .empty 12
      (⟨#['a'], .ofList " \t\r\n \r\nx".toList, [1, 0], 1, #[]⟩ : Scanner Char) =
        some (.matched ⟨1, 6⟩, ⟨"a \t\r\n \r\nx".toList.toArray, .ofList [], [1, 0], 6,
          #[.rolledBack 8 6]⟩) := rfl
  have hsame := (happly _ (le_max_left enough 12)).symm.trans
    (apply_mono .empty (le_max_right enough 12) _ _ _ hrun)
  obtain ⟨rfl, rfl⟩ : k = 5 ∧ t = ⟨"a \t\r\n \r\nx".toList.toArray, .ofList [], [1, 0], 6,
      #[.rolledBack 8 6]⟩ := by
    simp only [Option.some.injEq, Prod.mk.injEq, Outcome.matched.injEq, Span.mk.injEq] at hsame
    obtain ⟨⟨-, hstop⟩, ht⟩ := hsame
    exact ⟨Nat.add_left_cancel hstop, ht⟩
  exact ⟨_, hrun, hposition, hmarks, rfl, hlongest⟩

end Rule

end Abnf
