import Abnf.Proofs.Same
import Abnf.Proofs.Sight

/-!
# Abnf.Proofs.Unrolling — repetition in terms of concatenation and option

A repetition ends with the first round that matches nothing, and counts it for all that are still
asked for.  Carrying on comes to the same: at the same place the rule has no choice but to match
nothing again, and it reads no further than it did.

* `ComesTo.repetition_iff`: one round, whether or not it matches anything, then what is left.
* `exists_restSees_round`: the same for how far the input is read.
* `repetition_unrolled`: outcomes, positions, marks and buffers.
-/

namespace Abnf

variable {α : Type}

open Scanner

theorem Bounds.max_ne_zero {b : Bounds} (hb : b.inOrder) (hmin : b.min ≠ 0) : b.max ≠ some 0 := by
  intro hmax
  simp only [inOrder, hmax, decide_eq_true_eq] at hb
  omega

namespace Rule

variable [Symbol α] {g : Grammar (Rule α)} {input : List α} {r r' : Rule α} {rest : List (Rule α)}
  {b : Bounds} {p e : Nat} {o : Outcome}

/-! ### Outcomes -/

theorem ComesTo.repetition_of_empty (h : r.ComesTo g input p (.matched ⟨p, p⟩)) (hb : b.inOrder) :
    (Rule.repetition b r).ComesTo g input p (.matched ⟨p, p⟩) := by
  by_cases hmax : b.max = some 0
  · exact .full hb hmax
  · exact .emptyRound hb hmax h

/-- A round that matches need not be asked whether it matches anything. -/
theorem ComesTo.repetition_iff (hb : b.inOrder) (hmax : b.max ≠ some 0) :
    (Rule.repetition b r).ComesTo g input p o ↔
      (∃ m o', r.ComesTo g input p (.matched ⟨p, m⟩) ∧
          (Rule.repetition (b.after 1) r).ComesTo g input m o' ∧ o = o'.since p) ∨
        (r.ComesTo g input p .noMatch ∧
          (b.min = 0 ∧ o = .matched ⟨p, p⟩ ∨ b.min ≠ 0 ∧ o = .noMatch)) ∨
        ∃ misuse, r.ComesTo g input p (.failed misuse) ∧ o = .failed misuse := by
  constructor
  · intro h
    obtain ⟨o₁, hr, hround⟩ := h.of_round hb hmax
    cases o₁ with
    | matched span =>
      obtain ⟨start, stop⟩ := span
      obtain rfl : start = p := hr.start_eq _ rfl
      rcases hround with ⟨hstop, rfl⟩ | ⟨-, o', hrest, rfl⟩
      · obtain rfl : stop = start := hstop
        exact .inl ⟨_, _, hr, hr.repetition_of_empty (Bounds.inOrder_after hb 1), rfl⟩
      · exact .inl ⟨stop, o', hr, hrest, rfl⟩
    | noMatch => exact .inr (.inl ⟨hr, hround⟩)
    | failed misuse => exact .inr (.inr ⟨misuse, hr, hround⟩)
  · rintro (⟨m, o', hr, hrest, rfl⟩ | ⟨hr, ⟨hmin, rfl⟩ | ⟨hmin, rfl⟩⟩ | ⟨misuse, hr, rfl⟩)
    · by_cases hm : m = p
      · subst hm
        obtain rfl := hrest.unique (hr.repetition_of_empty (Bounds.inOrder_after hb 1))
        exact .emptyRound hb hmax hr
      · exact .round hb hmax hr hm hrest
    · exact .enough hb hmax hr hmin
    · exact .tooFew hb hmax hr hmin
    · exact .roundFails hb hmax hr

theorem ComesTo.repetition_ne_noMatch (h : (Rule.repetition b r).ComesTo g input p o)
    (hb : b.inOrder) (hmin : b.min = 0) : o ≠ .noMatch := by
  generalize hq : Rule.repetition b r = q at h
  induction h generalizing b with
  | outOfOrder hb' =>
    cases hq
    simp [hb] at hb'
  | tooFew _ _ _ hmin' =>
    cases hq
    exact absurd hmin hmin'
  | round _ _ _ _ _ _ ih =>
    cases hq
    have hrest := ih (Bounds.inOrder_after hb 1) (by simp [Bounds.after, hmin]) rfl
    exact fun hnone => hrest (Outcome.since_eq_noMatch_iff.mp hnone)
  | full | emptyRound | enough | roundFails => simp
  | _ => cases hq

namespace Same

/-- A round that is asked for. -/
theorem repetition_round (hb : b.inOrder) (hmin : b.min ≠ 0) :
    Same g input (.repetition b r) (concat [r, .repetition (b.after 1) r]) := by
  intro p o
  rw [ComesTo.repetition_iff hb (Bounds.max_ne_zero hb hmin), comesTo_pair_iff]
  refine or_congr .rfl ?_
  constructor
  · rintro (⟨hr, ⟨h, -⟩ | ⟨-, rfl⟩⟩ | ⟨misuse, hr, rfl⟩)
    · exact absurd h hmin
    · exact ⟨hr, by simp⟩
    · exact ⟨hr, by simp⟩
  · rintro ⟨hr, ho⟩
    cases o with
    | matched span => exact absurd rfl (ho span)
    | noMatch => exact .inl ⟨hr, .inr ⟨hmin, rfl⟩⟩
    | failed misuse => exact .inr ⟨misuse, hr, rfl⟩

/-- A round that is allowed but not asked for.  What is left after it always matches, so that only the
round itself can make the option match nothing. -/
theorem repetition_option (hb : b.inOrder) (hmax : b.max ≠ some 0) (hmin : b.min = 0) :
    Same g input (.repetition b r) (concat [r, .repetition (b.after 1) r]).optional := by
  have hmatch : ∀ m o', (Rule.repetition (b.after 1) r).ComesTo g input m o' → o' ≠ .noMatch :=
    fun m o' h => h.repetition_ne_noMatch (Bounds.inOrder_after hb 1) (by simp [Bounds.after, hmin])
  intro p o
  rw [ComesTo.repetition_iff hb hmax]
  constructor
  · rintro (⟨m, o', hr, hrest, rfl⟩ | ⟨hr, ⟨-, rfl⟩ | ⟨h, -⟩⟩ | ⟨misuse, hr, rfl⟩)
    · have hsince : o'.since p ≠ .noMatch := fun hnone =>
        hmatch m o' hrest (Outcome.since_eq_noMatch_iff.mp hnone)
      exact .optional (comesTo_pair_iff.mpr (.inl ⟨m, o', hr, hrest, rfl⟩)) hsince
    · exact .optionalElse (.concatElse hr (by simp))
    · exact absurd hmin h
    · exact .optional (.concatElse hr (by simp)) (by simp)
  · intro h
    cases h with
    | optional hpair ho =>
      rcases comesTo_pair_iff.mp hpair with hround | ⟨hr, hne⟩
      · exact .inl hround
      · cases o with
        | matched span => exact absurd rfl (hne span)
        | noMatch => exact absurd rfl ho
        | failed misuse => exact .inr (.inr ⟨misuse, hr, rfl⟩)
    | optionalElse hpair =>
      rcases comesTo_pair_iff.mp hpair with ⟨m, o', -, hrest, hnone⟩ | ⟨hr, -⟩
      · exact absurd (Outcome.since_eq_noMatch_iff.mp hnone.symm) (hmatch m o' hrest)
      · exact .inr (.inl ⟨hr, .inl ⟨hmin, rfl⟩⟩)

/-- All rounds that are asked for. -/
theorem repetition_replicate : ∀ (count : Nat) (b : Bounds), b.inOrder → b.min = count →
    Same g input (.repetition b r) (concat (List.replicate count r ++ [.repetition (b.after count) r]))
  | 0, b, _, _ => by
    rw [b.after_zero]
    exact (concat_single _).symm
  | count + 1, b, hb, hmin => by
    have hrest := repetition_replicate count (b.after 1) (Bounds.inOrder_after hb 1)
      (by simp [Bounds.after, hmin])
    rw [Bounds.after_after, Nat.add_comm 1 count] at hrest
    have hround : Same g input (.repetition b r) (concat [r, .repetition (b.after 1) r]) :=
      repetition_round hb (by omega)
    exact hround.trans ((refl r).concat_cons ((concat_single _).trans hrest))

end Same

/-! ### How far the input is read -/

section Sight

variable (hg : g.Plain)
include hg

theorem exists_restSees_single (hplain : r.Plain) (h : r.ComesTo g input p o) :
    ∃ e, RestSees g input r p e ∧ RestSees g input (concat [r]) p e := by
  obtain ⟨e, he⟩ := exists_restSees hg h hplain
  refine ⟨e, he, ?_⟩
  cases o with
  | matched span =>
    obtain rfl := h.start_eq span rfl
    simpa using restSees_concat_cons hg hplain he.sees h restSees_nil
  | noMatch => exact restSees_concat_else hg hplain he.sees h (by simp)
  | failed misuse => exact restSees_concat_else hg hplain he.sees h (by simp)

variable (hr : r.Plain)
include hr

/-- After a match of nothing, the rounds asked for and those allowed read what has been read. -/
theorem exists_restSees_replicate_of_empty (h : r.ComesTo g input p (.matched ⟨p, p⟩))
    (he : r.Sees g input p e) (hb : b.inOrder) : ∀ count, ∃ e' ≤ e,
      RestSees g input (concat (List.replicate count r ++ [.repetition b r])) p e'
  | 0 => by
    obtain ⟨e', hle, he'⟩ : ∃ e' ≤ e, RestSees g input (.repetition b r) p e' := by
      by_cases hmax : b.max = some 0
      · exact ⟨0, Nat.zero_le e, restSees_full hb hmax⟩
      · refine ⟨e, le_rfl, restSees_lastRound hg hr he hb hmax h ?_⟩
        rintro m ⟨⟩
        rfl
    have hsingle := restSees_concat_cons hg (.repetition b hr) he'.sees (h.repetition_of_empty hb)
      restSees_nil
    exact ⟨e', hle, by simpa using hsingle⟩
  | count + 1 => by
    obtain ⟨e', hle, he'⟩ := exists_restSees_replicate_of_empty h he hb count
    exact ⟨_, max_le le_rfl hle, restSees_concat_cons hg hr he h he'⟩

/-- A round, and then others written in another way that reads as far. -/
theorem exists_restSees_round (hb : b.inOrder) (hmax : b.max ≠ some 0)
    (h : (Rule.repetition b r).ComesTo g input p o)
    (hrest : ∀ m o', (Rule.repetition (b.after 1) r).ComesTo g input m o' →
      ∃ e, RestSees g input (.repetition (b.after 1) r) m e ∧ RestSees g input (concat rest) m e)
    (hempty : ∀ e, r.ComesTo g input p (.matched ⟨p, p⟩) → r.Sees g input p e →
      ∃ e' ≤ e, RestSees g input (concat rest) p e') :
    ∃ e, RestSees g input (.repetition b r) p e ∧ RestSees g input (concat (r :: rest)) p e := by
  obtain ⟨o₁, hfirst, hround⟩ := h.of_round hb hmax
  obtain ⟨e, he⟩ := exists_restSees hg hfirst hr
  have helse : (∀ span, o₁ ≠ .matched span) →
      ∃ e, RestSees g input (.repetition b r) p e ∧ RestSees g input (concat (r :: rest)) p e :=
    fun ho => ⟨e, restSees_lastRound hg hr he.sees hb hmax hfirst fun m hm => absurd hm (ho _),
      restSees_concat_else hg hr he.sees hfirst ho⟩
  cases o₁ with
  | matched span =>
    obtain ⟨start, stop⟩ := span
    obtain rfl : start = p := hfirst.start_eq _ rfl
    by_cases hstop : stop = start
    · subst hstop
      obtain ⟨e', hle, he'⟩ := hempty e hfirst he.sees
      have hconcat := restSees_concat_cons hg hr he.sees hfirst he'
      rw [Nat.max_eq_left hle] at hconcat
      refine ⟨e, restSees_lastRound hg hr he.sees hb hmax hfirst ?_, hconcat⟩
      rintro m ⟨⟩
      rfl
    · rcases hround with ⟨hstop', -⟩ | ⟨-, o', hothers, -⟩
      · exact absurd hstop' hstop
      · obtain ⟨e', he', hconcat⟩ := hrest _ _ hothers
        exact ⟨max e e', restSees_round hg hr he.sees hb hmax hfirst hstop he',
          restSees_concat_cons hg hr he.sees hfirst hconcat⟩
  | noMatch => exact helse (by simp)
  | failed misuse => exact helse (by simp)

theorem exists_restSees_replicate : ∀ (count : Nat) (b : Bounds) (p : Nat) (o : Outcome), b.inOrder →
    b.min = count → (Rule.repetition b r).ComesTo g input p o →
    ∃ e, RestSees g input (.repetition b r) p e ∧
      RestSees g input (concat (List.replicate count r ++ [.repetition (b.after count) r])) p e
  | 0, b, p, o, _, _, h => by
    rw [b.after_zero]
    exact exists_restSees_single hg (.repetition b hr) h
  | count + 1, b, p, o, hb, hmin, h => by
    have hafter := Bounds.inOrder_after hb 1
    refine exists_restSees_round hg hr hb (Bounds.max_ne_zero hb (by omega)) h (fun m o' hrest => ?_)
      fun e hempty he => ?_
    · have hothers := exists_restSees_replicate count (b.after 1) m o' hafter
        (by simp [Bounds.after, hmin]) hrest
      rwa [Bounds.after_after, Nat.add_comm 1 count] at hothers
    · exact exists_restSees_replicate_of_empty hg hr hempty he (Bounds.inOrder_after hb _) count

theorem exists_sees_option (hb : b.inOrder) (hmax : b.max ≠ some 0) (hmin : b.min = 0)
    (h : (Rule.repetition b r).ComesTo g input p o) :
    ∃ e, (Rule.repetition b r).Sees g input p e ∧
      (concat [r, .repetition (b.after 1) r]).optional.Sees g input p e := by
  have hafter := Bounds.inOrder_after hb 1
  have hrest : (Rule.repetition (b.after 1) r).Plain := .repetition _ hr
  obtain ⟨e, he, hconcat⟩ := exists_restSees_round hg hr hb hmax h
    (fun m o' hothers => exists_restSees_single hg hrest hothers)
    (fun e hempty he => exists_restSees_replicate_of_empty hg hr hempty he hafter 0)
  have hplain : (concat [r, .repetition (b.after 1) r]).Plain := by simp [hr]
  refine ⟨e, he.sees, ?_⟩
  -- the option itself comes to what the repetition does, but its rule may not match
  have hoption := (Same.repetition_option hb hmax hmin p o).mp h
  cases hoption with
  | optional hpair _ => exact sees_optional hg hplain hconcat.sees hpair
  | optionalElse hpair => exact sees_optional hg hplain hconcat.sees hpair

end Sight

/-! ### Applications -/

/-- From the scanner, applications of both rules end or none of them does.  They come to the same
outcome; and unless that is a failure, they leave the same position, marks and buffer. -/
structure AlikeFrom (g : Grammar (Rule α)) (s : Scanner α) (r r' : Rule α) : Prop where
  ends : (∃ fuel x, r.apply g fuel s = some x) ↔ ∃ fuel x, r'.apply g fuel s = some x
  outcome : ∀ {fuel fuel' o o' t t'}, r.apply g fuel s = some (o, t) →
    r'.apply g fuel' s = some (o', t') → o = o'
  state : ∀ {fuel fuel' o o' t t'}, r.apply g fuel s = some (o, t) →
    r'.apply g fuel' s = some (o', t') → (∀ misuse, o ≠ .failed misuse) →
    t.position = t'.position ∧ t.marks = t'.marks ∧ t.buffer = t'.buffer

/-- Rules that come to the same and read as far. -/
theorem alikeFrom_of_same (hg : g.Plain) (hr : r.Plain) (hr' : r'.Plain) {s : Scanner α}
    (hs : s.At input p) (hsame : Same g input r r')
    (hsight : ∀ o, r.ComesTo g input p o → ∃ e, r.Sees g input p e ∧ r'.Sees g input p e) :
    AlikeFrom g s r r' := by
  have hcomes : ∀ {q : Rule α} {fuel o t}, q.Plain → q.apply g fuel s = some (o, t) →
      q.ComesTo g input p o := by
    intro q fuel o t hq h
    rw [← hs.position]
    exact comesTo_of_apply hg fuel q s o t hq hs.ordered hs.reads h
  have houtcome : ∀ {fuel fuel' o o' t t'}, r.apply g fuel s = some (o, t) →
      r'.apply g fuel' s = some (o', t') → o = o' := fun h h' =>
    ((hsame p _).mp (hcomes hr h)).unique (hcomes hr' h')
  refine ⟨⟨?_, ?_⟩, houtcome, fun {fuel fuel' o o' t t'} h h' ho => ?_⟩
  · rintro ⟨fuel, ⟨o, t⟩, h⟩
    obtain ⟨fuel', t', h'⟩ := apply_of_comesTo hg hr' ((hsame p o).mp (hcomes hr h)) hs
    exact ⟨fuel', _, h'⟩
  · rintro ⟨fuel, ⟨o, t⟩, h⟩
    obtain ⟨fuel', t', h'⟩ := apply_of_comesTo hg hr ((hsame p o).mpr (hcomes hr' h)) hs
    exact ⟨fuel', _, h'⟩
  · obtain rfl := houtcome h h'
    obtain ⟨e, he, he'⟩ := hsight o (hcomes hr h)
    have hsize : t.buffer.size = t'.buffer.size := by
      rw [he fuel s o t hs h, he' fuel' s o t' hs h']
    have hbuffer : t.buffer = t'.buffer :=
      (hs.reads.steps (steps_of_apply g h)).buffer_eq (hs.reads.steps (steps_of_apply g h')) hsize
    have hc := (plain_keepsContract hg hr fuel s o t hs.ordered h).1
    have hc' := (plain_keepsContract hg hr' fuel' s o t' hs.ordered h').1
    refine ⟨?_, (hc.marks_eq ho).trans (hc'.marks_eq ho).symm, hbuffer⟩
    cases o with
    | matched span => exact hc.2.2.1.symm.trans hc'.2.2.1
    | noMatch => exact hc.1.trans hc'.1.symm
    | failed misuse => exact absurd rfl (ho misuse)

/-- **Repetition is unrolled.**  Over an input, whatever is buffered of it and whatever marks are set, a
repetition acts like the least number of rounds one after another and then the rounds still allowed;
and where no round is asked for, like the option of a round and then the rounds still allowed. -/
theorem repetition_unrolled (hg : g.Plain) (hr : r.Plain) {s : Scanner α} (hs : s.Ordered)
    (hin : s.Reads input) :
    (∀ b : Bounds, b.inOrder →
        AlikeFrom g s (.repetition b r) (concat
          (List.replicate b.min r ++ [.repetition ⟨0, b.max.map fun max => max - b.min⟩ r]))) ∧
      (∀ n, AlikeFrom g s (.repetition (.atMost (n + 1)) r)
        (concat [r, .repetition (.atMost n) r]).optional) ∧
      AlikeFrom g s (zeroOrMore r) (concat [r, zeroOrMore r]).optional := by
  have hat : s.At input s.position := ⟨hs, hin, rfl⟩
  have hoption : ∀ b : Bounds, b.inOrder → b.max ≠ some 0 → b.min = 0 →
      AlikeFrom g s (.repetition b r) (concat [r, .repetition (b.after 1) r]).optional := by
    intro b hb hmax hmin
    exact alikeFrom_of_same hg (.repetition b hr) (by simp [hr]) hat
      (Same.repetition_option hb hmax hmin) fun o h => exists_sees_option hg hr hb hmax hmin h
  refine ⟨fun b hb => ?_, fun n => ?_, ?_⟩
  · have hleft : b.after b.min = ⟨0, b.max.map fun max => max - b.min⟩ := by simp [Bounds.after]
    rw [← hleft]
    have hplain : (concat (List.replicate b.min r ++ [.repetition (b.after b.min) r])).Plain := by
      simp +contextual [or_imp, hr]
    refine alikeFrom_of_same hg (.repetition b hr) hplain hat
      (Same.repetition_replicate b.min b hb rfl) fun o h => ?_
    obtain ⟨e, he, he'⟩ := exists_restSees_replicate hg hr b.min b _ o hb rfl h
    exact ⟨e, he.sees, he'.sees⟩
  · exact hoption (.atMost (n + 1)) (by simp [Bounds.atMost, Bounds.inOrder]) (by simp [Bounds.atMost])
      rfl
  · exact hoption (.atLeast 0) rfl (by simp [Bounds.atLeast]) rfl

/-- Two rounds or three of an option: the second matches nothing, behind which a symbol is read. -/
theorem repetition_unrolled_of_option :
    ∃ t t', (Rule.repetition ⟨2, some 3⟩ (.optional (.symbol 'x'))).apply .empty 6
          ⟨#['x'], .ofList ['y', 'x'], [0], 0, #[]⟩ = some (.matched ⟨0, 1⟩, t) ∧
        (concat [.optional (.symbol 'x'), .optional (.symbol 'x'),
            .repetition (.atMost 1) (.optional (.symbol 'x'))]).apply .empty 6
          ⟨#['x'], .ofList ['y', 'x'], [0], 0, #[]⟩ = some (.matched ⟨0, 1⟩, t') ∧
        t.position = t'.position ∧ t.marks = t'.marks ∧ t.buffer = t'.buffer := by
  have hs : Scanner.Ordered (⟨#['x'], .ofList ['y', 'x'], [0], 0, #[]⟩ : Scanner Char) :=
    ⟨by simp, by simp, by simp⟩
  have hin : Scanner.Reads (⟨#['x'], .ofList ['y', 'x'], [0], 0, #[]⟩ : Scanner Char)
      ['x', 'y', 'x'] :=
    ⟨['y', 'x'], rfl, Source.delivers_ofList _⟩
  have hg : Grammar.Plain (.empty : Grammar (Rule Char)) := fun _ _ h => nomatch h
  have hr : (optional (.symbol 'x')).Plain := by simp
  have hrounds : (Rule.repetition ⟨2, some 3⟩ (.optional (.symbol 'x'))).apply .empty 6
      ⟨#['x'], .ofList ['y', 'x'], [0], 0, #[]⟩ =
      some (.matched ⟨0, 1⟩, ⟨#['x', 'y'], .ofList ['x'], [0], 1, #[]⟩) := rfl
  have hunrolled : (concat [.optional (.symbol 'x'), .optional (.symbol 'x'),
      .repetition (.atMost 1) (.optional (.symbol 'x'))]).apply .empty 6
      ⟨#['x'], .ofList ['y', 'x'], [0], 0, #[]⟩ =
      some (.matched ⟨0, 1⟩, ⟨#['x', 'y'], .ofList ['x'], [0], 1, #[]⟩) := rfl
  have halike := (repetition_unrolled hg hr hs hin).1 ⟨2, some 3⟩ rfl
  exact ⟨_, _, hrounds, hunrolled, halike.state hrounds hunrolled (by simp)⟩

end Rule

end Abnf
