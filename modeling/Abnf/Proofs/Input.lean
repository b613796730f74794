import Abnf.Proofs.Order

/-!
# Abnf.Proofs.Input — what is buffered and what is to come make up the input

`Source.Delivers` says of a source that it answers given symbols one by one and from then on never
another, as a fused iterator does; where the reads are cut and how the end shows does not matter.
`Scanner.Reads` says the same of a scanner, counting what it has buffered.

* `Scanner.contents_step`: no operation loses, repeats or reorders symbols, whatever the source.
* `Scanner.Reads.peek_fst`: over an input, looking answers the symbol at the position.
-/

namespace Abnf

variable {α : Type}

namespace Source

/-- The source answers these symbols, one a pull, and never another. -/
def Delivers : Source α → List α → Prop
  | source, [] => source.contents = []
  | source, a :: rest => ∃ next : Source α, source.pull = .symbol a next ∧ next.Delivers rest

theorem delivers_ofList (symbols : List α) : (ofList symbols).Delivers symbols := by
  induction symbols with
  | nil => rfl
  | cons a rest ih => exact ⟨ofList rest, rfl, ih⟩

/-- A source at its end answers no symbol and stays at its end. -/
theorem Delivers.pull_nil {source : Source α} (h : source.Delivers []) :
    source.pull.symbol? = none ∧ source.pull.rest.Delivers [] := by
  have hc : source.pull.symbol?.toList ++ source.pull.rest.contents = [] :=
    (contents_pull source).trans h
  rw [List.append_eq_nil_iff] at hc
  exact ⟨by simpa using hc.1, hc.2⟩

end Source

namespace Scanner

variable {s t : Scanner α} {input : List α}

/-! ### Any source -/

/-- An operation moves symbols from the source to the end of the buffer, or none at all. -/
theorem contents_step (h : Step s t) :
    t.buffer.toList ++ t.source.contents = s.buffer.toList ++ s.source.contents := by
  cases h with
  | peek =>
    unfold peek
    split
    · rw [← Source.contents_pull s.source]
      cases s.source.pull <;> simp [Pulled.symbol?, Pulled.rest, report]
    · rfl
  | advance =>
    unfold advance
    split <;> rfl
  | pushMark => rfl
  | rollback =>
    unfold rollback
    split <;> rfl
  | commit =>
    unfold commit
    split <;> rfl
  | report => rfl

theorem contents_steps (h : Steps s t) :
    t.buffer.toList ++ t.source.contents = s.buffer.toList ++ s.source.contents :=
  h.keeps (P := fun u => u.buffer.toList ++ u.source.contents = _)
    (fun _ _ hstep hu => (contents_step hstep).trans hu) rfl

/-! ### A source that delivers an input -/

/-- The scanner's buffer, and what its source delivers behind it, is the input. -/
def Reads (s : Scanner α) (input : List α) : Prop :=
  ∃ rest, s.buffer.toList ++ rest = input ∧ s.source.Delivers rest

theorem reads_ofSource {source : Source α} (h : source.Delivers input) :
    (ofSource source).Reads input :=
  ⟨input, rfl, h⟩

theorem Reads.size_le (h : s.Reads input) : s.buffer.size ≤ input.length := by
  obtain ⟨rest, rfl, -⟩ := h
  simp

theorem Reads.peek_fst (h : s.Reads input) (hp : s.position ≤ s.buffer.size) :
    s.peek.1 = input[s.position]? := by
  obtain ⟨rest, rfl, hd⟩ := h
  unfold peek
  split
  · rename_i heq
    cases rest with
    | nil =>
      have hnone := hd.pull_nil.1
      cases hpull : s.source.pull with
      | symbol a next => simp [hpull, Pulled.symbol?] at hnone
      | endOfInput next => simp [heq]
      | failed error next => simp [heq]
    | cons a rest =>
      obtain ⟨next, hpull, -⟩ := hd
      simp [hpull, heq]
  · have hlt : s.position < s.buffer.size := by omega
    simp [List.getElem?_append_left, hlt]

theorem Reads.peek_snd (h : s.Reads input) : s.peek.2.Reads input := by
  obtain ⟨rest, rfl, hd⟩ := h
  unfold peek
  split
  · cases rest with
    | nil =>
      obtain ⟨hnone, hrest⟩ := hd.pull_nil
      cases hpull : s.source.pull with
      | symbol a next => simp [hpull, Pulled.symbol?] at hnone
      | endOfInput next =>
        rw [hpull] at hrest
        exact ⟨[], rfl, hrest⟩
      | failed error next =>
        rw [hpull] at hrest
        exact ⟨[], rfl, hrest⟩
    | cons a rest =>
      obtain ⟨next, hpull, hnext⟩ := hd
      rw [hpull]
      exact ⟨rest, by simp, hnext⟩
  · exact ⟨rest, rfl, hd⟩

theorem Reads.step (h : s.Reads input) (hstep : Step s t) : t.Reads input := by
  cases hstep with
  | peek => exact h.peek_snd
  | advance =>
    unfold advance
    split <;> exact h
  | pushMark => exact h
  | rollback =>
    unfold rollback
    split <;> exact h
  | commit =>
    unfold commit
    split <;> exact h
  | report => exact h

theorem Reads.steps (h : s.Reads input) (hsteps : Steps s t) : t.Reads input :=
  hsteps.keeps (P := fun u => u.Reads input) (fun _ _ hstep hu => hu.step hstep) h

end Scanner

end Abnf
