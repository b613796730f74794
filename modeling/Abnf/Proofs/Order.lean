import Abnf.Proofs.Reach
import Abnf.Rule.Routine
import Mathlib.Order.Nat

/-!
# Abnf.Proofs.Order — the marks, the position and the buffer stay in order

No mark lies beyond a later one, none beyond the position, and the position not beyond the buffer.
That the marks are ordered is what makes this inductive: a rollback moves the position to the latest
mark, which therefore must not lie before the others.  Custom rules may resolve marks that others set,
so the argument is about single operations and not about rules.

* `Scanner.Ordered.step`, `Scanner.buffer_step`: each operation keeps the order, and what is buffered.
* `Scanner.reaches_ordered`: all uses of a new scanner do.
-/

namespace Abnf.Scanner

variable {α : Type} {s t : Scanner α}

/-- The marks, the latest first, the position and the end of the buffer are in order. -/
structure Ordered (s : Scanner α) : Prop where
  sorted : s.marks.Pairwise (· ≥ ·)
  mark_le : ∀ mark ∈ s.marks, mark ≤ s.position
  position_le : s.position ≤ s.buffer.size

/-! ### What the operations leave alone -/

@[simp] theorem position_peek (s : Scanner α) : s.peek.2.position = s.position := by
  unfold peek
  split
  · split <;> rfl
  · rfl

@[simp] theorem marks_peek (s : Scanner α) : s.peek.2.marks = s.marks := by
  unfold peek
  split
  · split <;> rfl
  · rfl

theorem buffer_peek (s : Scanner α) : s.buffer.toList <+: s.peek.2.buffer.toList := by
  unfold peek
  split
  · split
    · simp
    · exact List.prefix_rfl
    · exact List.prefix_rfl
  · exact List.prefix_rfl

/-- A symbol that was seen is buffered, so that it can be moved past. -/
theorem position_lt_of_peek {a : α} (hp : s.position ≤ s.buffer.size) (h : s.peek.1 = some a) :
    s.peek.2.position < s.peek.2.buffer.size := by
  unfold peek at h ⊢
  split at h
  · rename_i heq
    rw [if_pos heq]
    split at h
    · simp [heq]
    · cases h
    · cases h
  · rename_i hne
    rw [if_neg hne]
    show s.position < s.buffer.size
    omega

/-- A symbol that was seen is the one that is buffered at the position. -/
theorem getElem?_of_peek {a : α} (h : s.peek.1 = some a) :
    s.peek.2.buffer[s.position]? = some a := by
  unfold peek at h ⊢
  split at h
  · rename_i heq
    rw [if_pos heq]
    cases hpull : s.source.pull with
    | symbol b rest =>
      rw [hpull] at h
      cases h
      simp [heq]
    | endOfInput rest =>
      rw [hpull] at h
      cases h
    | failed error rest =>
      rw [hpull] at h
      cases h
  · rename_i hne
    rw [if_neg hne]
    exact h

theorem advance_of_lt (h : s.position < s.buffer.size) :
    s.advance = (.ok ⟨s.position, s.position + 1⟩, { s with position := s.position + 1 }) :=
  if_pos h

@[simp] theorem buffer_advance (s : Scanner α) : s.advance.2.buffer = s.buffer := by
  unfold advance
  split <;> rfl

@[simp] theorem marks_advance (s : Scanner α) : s.advance.2.marks = s.marks := by
  unfold advance
  split <;> rfl

@[simp] theorem buffer_rollback (s : Scanner α) : s.rollback.2.buffer = s.buffer := by
  unfold rollback
  split <;> rfl

@[simp] theorem buffer_commit (s : Scanner α) : s.commit.2.buffer = s.buffer := by
  unfold commit
  split <;> rfl

@[simp] theorem position_commit (s : Scanner α) : s.commit.2.position = s.position := by
  unfold commit
  split <;> rfl

/-- No operation removes or changes what is buffered. -/
theorem buffer_step (h : Step s t) : s.buffer.toList <+: t.buffer.toList := by
  cases h with
  | peek => exact buffer_peek s
  | advance => simp
  | pushMark => exact List.prefix_rfl
  | rollback => simp
  | commit => simp
  | report => exact List.prefix_rfl

theorem buffer_steps (h : Steps s t) : s.buffer.toList <+: t.buffer.toList :=
  h.keeps (P := fun u => s.buffer.toList <+: u.buffer.toList)
    (fun _ _ hstep hu => hu.trans (buffer_step hstep)) List.prefix_rfl

theorem size_le_of_steps (h : Steps s t) : s.buffer.size ≤ t.buffer.size := by
  simpa using (buffer_steps h).length_le

/-! ### Operations that succeed or fail -/

theorem advance_ok {span : Span} (ha : s.advance = (.ok span, t)) :
    Span.ofBounds? span.start span.stop = some span ∧ t.position = s.position + 1 ∧
      t.position ≤ s.buffer.size := by
  unfold advance at ha
  split at ha
  · rename_i hlt
    cases ha
    exact ⟨Span.ofBounds?_eq_some_iff.mpr ⟨Nat.le_succ _, rfl⟩, rfl, hlt⟩
  · cases ha

theorem commit_of_marks {mark : Nat} {marks : List Nat} (h : s.marks = mark :: marks) :
    s.commit = (.ok ⟨mark, s.position⟩, { s with marks := marks }) := by
  unfold commit
  rw [h]

theorem rollback_of_marks {mark : Nat} {marks : List Nat} (h : s.marks = mark :: marks) :
    s.rollback = (.ok (), { s.report (.rolledBack s.position mark) with
      position := mark, marks := marks }) := by
  unfold rollback
  rw [h]

theorem eq_of_advance_error {m : Misuse} (h : s.advance = (.error m, t)) : t = s := by
  unfold advance at h
  split at h <;> cases h
  rfl

theorem eq_of_rollback_error {m : Misuse} (h : s.rollback = (.error m, t)) : t = s := by
  unfold rollback at h
  split at h <;> cases h
  rfl

theorem eq_of_commit_error {m : Misuse} (h : s.commit = (.error m, t)) : t = s := by
  unfold commit at h
  split at h <;> cases h
  rfl

/-! ### The order -/

namespace Ordered

theorem ofSource (source : Source α) : (ofSource source).Ordered :=
  ⟨.nil, fun _ h => (nomatch h), le_rfl⟩

theorem peek (h : s.Ordered) : s.peek.2.Ordered := by
  have hsize : s.buffer.size ≤ s.peek.2.buffer.size := size_le_of_steps (.single (.peek s))
  refine ⟨?_, ?_, ?_⟩
  · rw [marks_peek]
    exact h.sorted
  · rw [marks_peek, position_peek]
    exact h.mark_le
  · rw [position_peek]
    exact h.position_le.trans hsize

theorem advance (h : s.Ordered) : s.advance.2.Ordered := by
  unfold Scanner.advance
  split
  · rename_i hlt
    exact ⟨h.sorted, fun mark hm => Nat.le_succ_of_le (h.mark_le mark hm), hlt⟩
  · exact h

theorem pushMark (h : s.Ordered) : s.pushMark.Ordered := by
  refine ⟨List.pairwise_cons.mpr ⟨h.mark_le, h.sorted⟩, fun mark hm => ?_, h.position_le⟩
  rcases List.mem_cons.mp hm with rfl | hm
  · exact le_rfl
  · exact h.mark_le mark hm

/-- A mark that is resolved leaves marks that are not beyond it. -/
theorem of_marks_cons (h : s.Ordered) {mark : Nat} {marks : List Nat}
    (hs : s.marks = mark :: marks) :
    marks.Pairwise (· ≥ ·) ∧ (∀ m ∈ marks, m ≤ mark) ∧ mark ≤ s.position := by
  have hsorted := h.sorted
  rw [hs, List.pairwise_cons] at hsorted
  exact ⟨hsorted.2, hsorted.1, h.mark_le mark (by simp [hs])⟩

theorem rollback (h : s.Ordered) : s.rollback.2.Ordered := by
  unfold Scanner.rollback
  split
  · exact h
  · rename_i mark marks hs
    obtain ⟨hsorted, hle, hmark⟩ := h.of_marks_cons hs
    exact ⟨hsorted, hle, hmark.trans h.position_le⟩

theorem commit (h : s.Ordered) : s.commit.2.Ordered := by
  unfold Scanner.commit
  split
  · exact h
  · rename_i mark marks hs
    obtain ⟨hsorted, hle, hmark⟩ := h.of_marks_cons hs
    exact ⟨hsorted, fun m hm => (hle m hm).trans hmark, h.position_le⟩

theorem step (h : s.Ordered) (hstep : Step s t) : t.Ordered := by
  cases hstep with
  | peek => exact h.peek
  | advance => exact h.advance
  | pushMark => exact h.pushMark
  | rollback => exact h.rollback
  | commit => exact h.commit
  | report => exact ⟨h.sorted, h.mark_le, h.position_le⟩

theorem steps (h : s.Ordered) (hsteps : Steps s t) : t.Ordered :=
  hsteps.keeps (fun _ _ hstep hs => hs.step hstep) h

theorem commit_ok {span : Span} (h : s.Ordered) (hc : s.commit = (.ok span, t)) :
    Span.ofBounds? span.start span.stop = some span := by
  unfold Scanner.commit at hc
  split at hc
  · cases hc
  · rename_i mark marks hs
    cases hc
    exact Span.ofBounds?_eq_some_iff.mpr ⟨(h.of_marks_cons hs).2.2, rfl⟩

end Ordered

/-- **The order of a scanner under arbitrary use.**  Whatever operations and rules a new scanner went
through, its marks, position and buffer are in order; so the spans that it answers have their ends in
order, and it moves only within the buffer.  A failed operation leaves it as it was, and whatever it
goes through next, what is buffered stays. -/
theorem reaches_ordered [Symbol α] (source : Source α)
    (h : Reaches (ofSource source) s) :
    s.Ordered ∧
      (∀ span t, s.commit = (.ok span, t) → Span.ofBounds? span.start span.stop = some span) ∧
      (∀ span t, s.advance = (.ok span, t) →
        Span.ofBounds? span.start span.stop = some span ∧ t.position = s.position + 1 ∧
          t.position ≤ s.buffer.size) ∧
      (∀ m t, s.advance = (.error m, t) → t = s) ∧
      (∀ m t, s.commit = (.error m, t) → t = s) ∧
      (∀ m t, s.rollback = (.error m, t) → t = s) ∧
      ∀ t, Reaches s t → s.buffer.toList <+: t.buffer.toList := by
  have hs : s.Ordered := (Ordered.ofSource source).steps h.steps
  refine ⟨hs, fun _ _ => hs.commit_ok, fun _ _ => advance_ok, fun _ _ => eq_of_advance_error,
    fun _ _ => eq_of_commit_error, fun _ _ => eq_of_rollback_error, fun t ht => ?_⟩
  exact buffer_steps ht.steps

/-- A custom rule goes back to a mark that it did not set, leaves two of its own, and fails. -/
theorem reaches_ordered_of_foreign_rollback :
    ∃ s : Scanner Char, Reaches (ofSource (.ofList ['a', 'b'])) s ∧ s.marks = [1, 0] ∧
      s.position = 1 ∧ s.buffer = #['a'] ∧ s.Ordered := by
  have h := Reaches.apply (.step (.refl (s := ofSource (.ofList ['a', 'b']))) (.pushMark _)) .empty 1
    (.routine [.need, .advance, .rollback, .mark, .advance, .mark, .advance] .last)
    (Rule.mem_moments_of_apply _ rfl)
  exact ⟨_, h, rfl, rfl, rfl, (reaches_ordered _ h).1⟩

end Abnf.Scanner
