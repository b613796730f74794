import Abnf.Proofs.Input
import Mathlib.Algebra.GroupWithZero.Nat
import Mathlib.Data.List.Chain

/-!
# Abnf.Proofs.History — what is read, in the order in which a scanner was used

`Scanner.History s past now`: a use of `s` passed through the scanners `past`, in that order, and is at
`now`.  Each comes of the one before it by at most one operation (`History.isChain`), also inside an
application, which may be looked at before it ends.  A symbol is pulled where the position is at the
end of the buffer, and nowhere else; so what is buffered never goes further than one symbol beyond a
position that the scanner was at.

* `Source.pulled_eq_contents`: what enough pulls answer is what the source holds.
* `Scanner.reaches_reads_lazily`: conservation and laziness under arbitrary use.
-/

namespace Abnf

variable {ρ α : Type}

/-! ### What pulls answer -/

namespace Source

/-- The symbols that so many pulls answer; a pull that answers none counts as well. -/
def pulled : Nat → Source α → List α
  | 0, _ => []
  | n + 1, source => source.pull.symbol?.toList ++ pulled n source.pull.rest

/-- More pulls than that answer no more symbols. -/
def weight (source : Source α) : Nat :=
  source.delivered.length + (source.reads.map fun read => (symbolsOf read).length + 1).sum

theorem weight_rest_pullReads (reads : List (Read α)) :
    (pullReads reads).rest.weight ≤ weight ⟨[], reads⟩ - 1 := by
  fun_induction pullReads reads with
  | case1 => exact Nat.zero_le _
  | case2 rest => simp [Pulled.rest, weight, symbolsOf]
  | case3 symbol more rest => simp [Pulled.rest, weight, symbolsOf]
  | case4 error rest => simp [Pulled.rest, weight, symbolsOf]
  | case5 rest ih =>
    have hstep : weight (⟨[], rest⟩ : Source α) ≤ weight ⟨[], .interrupted :: rest⟩ := by
      simp [weight]
    omega

/-- A pull takes something from a source that has anything left. -/
theorem weight_rest_pull (source : Source α) : source.pull.rest.weight ≤ source.weight - 1 := by
  obtain ⟨_ | ⟨a, more⟩, reads⟩ := source
  · exact weight_rest_pullReads reads
  · simp [pull, Pulled.rest, weight]

theorem contents_of_weight_eq_zero {source : Source α} (h : source.weight = 0) :
    source.contents = [] := by
  obtain ⟨delivered, reads⟩ := source
  cases reads with
  | nil => simpa [weight, contents] using h
  | cons read rest => simp [weight] at h

/-- Enough pulls answer all that a source holds, in order. -/
theorem pulled_eq_contents {n : Nat} {source : Source α} (h : source.weight ≤ n) :
    source.pulled n = source.contents := by
  induction n generalizing source with
  | zero => exact (contents_of_weight_eq_zero (by omega)).symm
  | succ n ih =>
    have hrest := source.weight_rest_pull
    rw [pulled, ih (by omega), contents_pull]

end Source

open Scanner

/-! ### The moments of an application are a chain of steps -/

namespace Script

variable {applyRule : ρ → Scanner α → Option (Outcome × Scanner α)}
  {momentsOf : ρ → Scanner α → List (Scanner α)}

/-- Begins at `s`, and goes on by at most one operation at a time. -/
def ChainFrom (s : Scanner α) (l : List (Scanner α)) : Prop :=
  l.head? = some s ∧ l.IsChain (Relation.ReflGen Step)

theorem ChainFrom.cons {s t : Scanner α} {l : List (Scanner α)} (h : ChainFrom t l)
    (hstep : Step s t) : ChainFrom s (s :: l) := by
  refine ⟨rfl, List.isChain_cons.mpr ⟨fun u hu => ?_, h.2⟩⟩
  rw [h.1] at hu
  cases hu
  exact .single hstep

/-- A list that goes on where another ends. -/
theorem ChainFrom.append {s t : Scanner α} {l l' : List (Scanner α)} (h : ChainFrom s l)
    (hlast : l.getLast? = some t) (h' : ChainFrom t l') : ChainFrom s (l ++ l') := by
  refine ⟨by simp [h.1], List.isChain_append.mpr ⟨h.2, h'.2, fun u hu v hv => ?_⟩⟩
  rw [hlast] at hu
  rw [h'.1] at hv
  cases hu
  cases hv
  exact .refl

theorem chainFrom_moments (hm : ∀ r s, ChainFrom s (momentsOf r s))
    (hlast : ∀ r s o t, applyRule r s = some (o, t) → (momentsOf r s).getLast? = some t)
    (c : Script ρ α) : ∀ s, ChainFrom s (c.moments applyRule momentsOf s) := by
  induction c with
  | answer outcome => exact fun s => ⟨rfl, .singleton s⟩
  | peek next ih => exact fun s => (ih _ _).cons (.peek s)
  | advance next ih => exact fun s => (ih _ _).cons (.advance s)
  | mark next ih => exact fun s => (ih _).cons (.pushMark s)
  | rollback next ih => exact fun s => (ih _ _).cons (.rollback s)
  | commit next ih => exact fun s => (ih _ _).cons (.commit s)
  | inspect next ih => exact fun s => ih _ _
  | report record next ih => exact fun s => (ih _).cons (.report s record)
  | apply rule next ih =>
    intro s
    cases ha : applyRule rule s with
    | none =>
      simp only [moments, ha, List.append_nil]
      exact hm rule s
    | some x =>
      simp only [moments, ha]
      exact (hm rule s).append (hlast rule s x.1 x.2 ha) (ih _ _)
  | unfinished => exact fun s => ⟨rfl, .singleton s⟩

theorem getLast?_moments (c : Script ρ α) : ∀ (s : Scanner α) (o : Outcome) (t : Scanner α),
    c.run applyRule s = some (o, t) → (c.moments applyRule momentsOf s).getLast? = some t := by
  -- A list that has a last element has the same one behind another list.
  have hbehind : ∀ (l l' : List (Scanner α)) (t : Scanner α), l'.getLast? = some t →
      (l ++ l').getLast? = some t := fun l l' t h => by simp [List.getLast?_append, h]
  induction c with
  | answer outcome =>
    intro s o t h
    cases h
    rfl
  | peek next ih => exact fun s o t h => hbehind [s] _ t (ih _ _ _ _ h)
  | advance next ih => exact fun s o t h => hbehind [s] _ t (ih _ _ _ _ h)
  | mark next ih => exact fun s o t h => hbehind [s] _ t (ih _ _ _ h)
  | rollback next ih => exact fun s o t h => hbehind [s] _ t (ih _ _ _ _ h)
  | commit next ih => exact fun s o t h => hbehind [s] _ t (ih _ _ _ _ h)
  | inspect next ih => exact fun s o t h => ih _ _ _ _ h
  | report record next ih => exact fun s o t h => hbehind [s] _ t (ih _ _ _ h)
  | apply rule next ih =>
    intro s o t h
    simp only [run] at h
    cases ha : applyRule rule s with
    | none => simp [ha] at h
    | some x =>
      rw [ha] at h
      simp only [moments, ha]
      exact hbehind _ _ t (ih _ _ _ _ h)
  | unfinished =>
    intro s o t h
    cases h

end Script

namespace Rule

variable [Symbol α] (g : Grammar (Rule α))

theorem chainFrom_moments (fuel : Nat) : ∀ (rule : Rule α) (s : Scanner α),
    Script.ChainFrom s (rule.moments g fuel s) ∧
      ∀ o t, rule.apply g fuel s = some (o, t) → (rule.moments g fuel s).getLast? = some t := by
  induction fuel with
  | zero => exact fun rule s => ⟨⟨rfl, .singleton s⟩, fun _ _ h => nomatch h⟩
  | succ fuel ih =>
    intro rule s
    have hchain : ∀ r s, Script.ChainFrom s (moments g fuel r s) := fun r s => (ih r s).1
    have hlast := fun r s => (ih r s).2
    exact ⟨Script.chainFrom_moments hchain hlast _ s,
      Script.getLast?_moments (rule.script g fuel) s⟩

end Rule

/-! ### One symbol ahead -/

namespace Scanner

variable {s t : Scanner α}

/-- Only a look beyond the buffer makes it longer, by the symbol at the position. -/
theorem size_step (h : Step s t) :
    t.buffer.size ≤ s.buffer.size ∨ t.buffer.size ≤ s.position + 1 := by
  cases h with
  | peek =>
    unfold peek
    split
    · rename_i heq
      cases s.source.pull with
      | symbol a rest => exact .inr (by simp [heq])
      | endOfInput rest => exact .inl le_rfl
      | failed error rest => exact .inl le_rfl
    · exact .inl le_rfl
  | advance => exact .inl (by simp)
  | pushMark => exact .inl le_rfl
  | rollback => exact .inl (by simp)
  | commit => exact .inl (by simp)
  | report => exact .inl le_rfl

/-- Along a chain of steps the buffer grows by what its scanners looked at. -/
theorem size_le_of_isChain {l : List (Scanner α)}
    (h : (s :: l).IsChain (Relation.ReflGen Step)) : ∀ t ∈ s :: l,
      t.buffer.size ≤ s.buffer.size ∨ ∃ u ∈ s :: l, t.buffer.size ≤ u.position + 1 := by
  induction l generalizing s with
  | nil =>
    intro t ht
    rw [List.mem_singleton.mp ht]
    exact .inl le_rfl
  | cons next rest ih =>
    obtain ⟨hstep, hrest⟩ := List.isChain_cons_cons.mp h
    have hnext : next.buffer.size ≤ s.buffer.size ∨ next.buffer.size ≤ s.position + 1 := by
      cases hstep with
      | refl => exact .inl le_rfl
      | single hstep => exact size_step hstep
    rintro t (_ | ⟨_, ht⟩)
    · exact .inl le_rfl
    · rcases ih hrest t ht with hle | ⟨u, hu, hle⟩
      · rcases hnext with hnext | hnext
        · exact .inl (hle.trans hnext)
        · exact .inr ⟨s, List.mem_cons_self, hle.trans hnext⟩
      · exact .inr ⟨u, List.mem_cons_of_mem _ hu, hle⟩

/-! ### Histories -/

variable [Symbol α] {now : Scanner α} {past : List (Scanner α)}

/-- A use of `s` passed through `past` and is at `now`.  Of an application, any part from its beginning
on may be over. -/
inductive History (s : Scanner α) : List (Scanner α) → Scanner α → Prop
  | start : History s [] s
  | step {past : List (Scanner α)} {t u : Scanner α} (h : History s past t) (hstep : Step t u) :
    History s (past ++ [t]) u
  | apply {past seen : List (Scanner α)} {t u : Scanner α} (h : History s past t)
    (g : Grammar (Rule α)) (fuel : Nat) (rule : Rule α)
    (hseen : seen ++ [u] <+: rule.moments g fuel t) : History s (past ++ seen) u

/-- Whatever comes of using a scanner has a history. -/
theorem Reaches.exists_history (h : Reaches s now) : ∃ past, History s past now := by
  induction h with
  | refl => exact ⟨[], .start⟩
  | step _ hstep ih =>
    obtain ⟨past, hpast⟩ := ih
    exact ⟨_, hpast.step hstep⟩
  | apply _ g fuel rule hu ih =>
    obtain ⟨past, hpast⟩ := ih
    obtain ⟨seen, later, hmoments⟩ := List.append_of_mem hu
    exact ⟨past ++ seen, hpast.apply g fuel rule ⟨later, by simp [hmoments]⟩⟩

theorem History.isChain (h : History s past now) :
    (past ++ [now]).head? = some s ∧ (past ++ [now]).IsChain (Relation.ReflGen Step) := by
  induction h with
  | start => exact ⟨rfl, .singleton s⟩
  | @step past t u _ hstep ih =>
    refine ⟨?_, List.isChain_append.mpr ⟨ih.2, .singleton u, ?_⟩⟩
    · rw [List.head?_append, ih.1]
      rfl
    · rintro v hv w ⟨⟩
      simp only [List.getLast?_append, List.getLast?_singleton] at hv
      cases hv
      exact .single hstep
  | @apply past seen t u _ g fuel rule hseen ih =>
    obtain ⟨hhead, hchain⟩ := (rule.chainFrom_moments g fuel t).1
    have hseenhead : (seen ++ [u]).head? = some t := by
      obtain ⟨later, hlater⟩ := hseen
      rw [← hlater, List.head?_append] at hhead
      cases seen with
      | nil => exact hhead
      | cons v rest => exact hhead
    have hpast := List.isChain_append.mp ih.2
    rw [List.append_assoc]
    refine ⟨?_, List.isChain_append.mpr ⟨hpast.1, hchain.prefix hseen, fun v hv w hw => ?_⟩⟩
    · rw [List.head?_append, hseenhead, ← ih.1, List.head?_append]
      rfl
    · rw [hseenhead] at hw
      exact hpast.2.2 v hv w hw

/-- **A scanner neither loses, repeats nor reorders symbols, and reads lazily.**  After any use of a new
scanner, what is buffered and what the source will still answer make up, in order, what the source
answered to begin with; and by whichever way the scanner came there, no more is buffered than one
symbol beyond the furthest position it was at. -/
theorem reaches_reads_lazily (source : Source α) (h : Reaches (ofSource source) now) :
    (∃ enough, ∀ n, enough ≤ n →
        now.buffer.toList ++ now.source.pulled n = source.pulled n ∧
          source.pulled n = source.contents) ∧
      (∃ past, History (ofSource source) past now) ∧
      ∀ past, History (ofSource source) past now →
        ∃ u ∈ past ++ [now], now.buffer.size ≤ u.position + 1 := by
  refine ⟨⟨max now.source.weight source.weight, fun n hn => ?_⟩, h.exists_history,
    fun past hpast => ?_⟩
  · have hcontents : now.buffer.toList ++ now.source.contents = source.contents :=
      contents_steps h.steps
    rw [Source.pulled_eq_contents ((le_max_left _ _).trans hn),
      Source.pulled_eq_contents ((le_max_right _ _).trans hn)]
    exact ⟨hcontents, rfl⟩
  · obtain ⟨hhead, hchain⟩ := hpast.isChain
    obtain ⟨rest, hrest⟩ : ∃ rest, past ++ [now] = ofSource source :: rest :=
      ⟨_, (List.cons_head?_tail hhead).symm⟩
    rw [hrest] at hchain ⊢
    have hnow : now ∈ ofSource source :: rest := by simp [← hrest]
    rcases size_le_of_isChain hchain now hnow with hle | hle
    · exact ⟨_, List.mem_cons_self, hle.trans (Nat.zero_le _)⟩
    · exact hle

/-- An end of the input that is none, and a match given up behind it. -/
theorem reaches_reads_lazily_of_late_symbol :
    ∃ (past : List (Scanner Char)) (now : Scanner Char),
      History (ofSource (.ofItems [some 'a', none, some 'b', some 'c'])) past now ∧
        now.position = 0 ∧ now.buffer = #['a', 'b'] ∧ ∃ u ∈ past ++ [now], 2 ≤ u.position + 1 := by
  have h := Reaches.apply (.refl (s := ofSource (.ofItems [some 'a', none, some 'b', some 'c'])))
    .empty 2 (.concat [.symbol 'a', .endOfInput, .symbol 'x']) (Rule.mem_moments_of_apply _ rfl)
  obtain ⟨-, ⟨past, hpast⟩, hlazy⟩ := reaches_reads_lazily _ h
  exact ⟨past, _, hpast, rfl, rfl, hlazy past hpast⟩

end Scanner

end Abnf
