import Abnf.Proofs.History

/-!
# Abnf.Proofs.FailedRead — a failed read ends the input for one look

A read that fails is reported and answers one look at the input; the next look goes on with the next
read, as after an end of the input that was not the last.  So a failed read is the end for good if and only if
the reads behind it deliver nothing.  That they are all looked at sooner or later is what a reader does
that looks again and again (`exists_reaches_all`).

* `Scanner.failed_read_ends_input_iff`: when what is behind a failed read is out of reach.
* `Scanner.symbol_behind_failed_read`: a symbol that is not.
-/

namespace Abnf.Scanner

variable {α : Type} {s t : Scanner α}

/-- What a look beyond the buffer comes to. -/
theorem peek_of_pull (hend : s.position = s.buffer.size) :
    s.peek.1 = s.source.pull.symbol? ∧ s.peek.2.source = s.source.pull.rest ∧
      s.peek.2.position = s.position ∧
      s.peek.2.buffer.toList = s.buffer.toList ++ s.source.pull.symbol?.toList := by
  simp only [peek, if_pos hend]
  cases s.source.pull <;> simp [Pulled.symbol?, Pulled.rest, report]

variable [Symbol α]

/-- Whatever is done from here on, nothing more is buffered, and a look beyond the buffer answers
nothing. -/
def AtEndForGood (s : Scanner α) : Prop :=
  ∀ t, Reaches s t → t.buffer = s.buffer ∧ (t.position = t.buffer.size → t.peek.1 = none)

/-- A look beyond the buffer, and a move over the symbol if there was one. -/
theorem exists_reaches_pull (hend : s.position = s.buffer.size) :
    ∃ u, Reaches s u ∧ u.position = u.buffer.size ∧ u.source = s.source.pull.rest ∧
      u.buffer.toList = s.buffer.toList ++ s.source.pull.symbol?.toList := by
  obtain ⟨-, hsource, hposition, hbuffer⟩ := peek_of_pull hend
  have hlength := congrArg List.length hbuffer
  have hlook : Reaches s s.peek.2 := .step .refl (.peek s)
  cases hsymbol : s.source.pull.symbol? with
  | none =>
    rw [hsymbol] at hbuffer hlength
    have hsize : s.peek.2.buffer.size = s.buffer.size := by simpa using hlength
    exact ⟨_, hlook, by omega, hsource, hbuffer⟩
  | some a =>
    rw [hsymbol] at hbuffer hlength
    have hsize : s.peek.2.buffer.size = s.buffer.size + 1 := by simpa using hlength
    have hmove := advance_of_lt (s := s.peek.2) (by omega)
    refine ⟨s.peek.2.advance.2, hlook.step (.advance _), ?_, ?_, ?_⟩
    · rw [hmove]
      show s.peek.2.position + 1 = s.peek.2.buffer.size
      omega
    · rw [hmove]
      exact hsource
    · rw [buffer_advance]
      exact hbuffer

/-- Looking and moving on again and again buffers all that the source holds. -/
theorem exists_reaches_all (hend : s.position = s.buffer.size) :
    ∃ t, Reaches s t ∧ t.buffer.toList = s.buffer.toList ++ s.source.contents := by
  generalize hn : s.source.weight = n
  induction n using Nat.strongRecOn generalizing s with
  | ind n ih =>
    by_cases hzero : s.source.weight = 0
    · exact ⟨s, .refl, by simp [Source.contents_of_weight_eq_zero hzero]⟩
    · obtain ⟨u, hu, hend', hsource, hbuffer⟩ := exists_reaches_pull hend
      have hless : u.source.weight < n := by
        have hrest := s.source.weight_rest_pull
        rw [hsource]
        omega
      obtain ⟨t, ht, hall⟩ := ih _ hless hend' rfl
      refine ⟨t, hu.trans ht, ?_⟩
      rw [hall, hbuffer, hsource, List.append_assoc, Source.contents_pull]

/-- The input is at its end for good where the source holds no symbol, and only there. -/
theorem atEndForGood_iff (hend : s.position = s.buffer.size) :
    s.AtEndForGood ↔ s.source.contents = [] := by
  constructor
  · intro h
    obtain ⟨t, ht, hall⟩ := exists_reaches_all hend
    rw [(h t ht).1] at hall
    simpa using hall.symm
  · intro h t ht
    have hall := contents_steps ht.steps
    rw [h, List.append_nil] at hall
    obtain ⟨more, hmore⟩ := buffer_steps ht.steps
    have hnone : more = [] ∧ t.source.contents = [] := by
      rw [← hmore, List.append_assoc] at hall
      simpa using hall
    obtain ⟨rfl, hcontents⟩ := hnone
    refine ⟨(Array.ext' (by simpa using hmore)).symm, fun htend => ?_⟩
    have hpull := t.source.contents_pull
    rw [hcontents, List.append_eq_nil_iff] at hpull
    rw [(peek_of_pull htend).1]
    simpa using hpull.1

/-- **A failed read ends the input for one look.**  The look that meets it answers nothing, reports the
failure, and leaves the reads behind it to be made; the input is at its end for good if and only if
these deliver nothing.  So what is buffered stays within what was delivered before a failure if and
only if nothing is delivered behind it. -/
theorem failed_read_ends_input_iff :
    (∀ (s : Scanner α) error rest, s.position = s.buffer.size →
        s.source.pull = .failed error rest →
        s.peek = (none, { s with source := rest }.report (.readFailed error)) ∧
          (s.peek.2.AtEndForGood ↔ rest.contents = [])) ∧
      ∀ (before after : List (Read α)) error,
        (∀ t, Reaches (ofSource (.ofReads (before ++ .failed error :: after))) t →
            t.buffer.toList <+: before.flatMap Source.symbolsOf) ↔
          after.flatMap Source.symbolsOf = [] := by
  refine ⟨fun s error rest hend hpull => ?_, fun before after error => ?_⟩
  · have hpeek : s.peek = (none, { s with source := rest }.report (.readFailed error)) := by
      simp only [peek, if_pos hend, hpull]
    refine ⟨hpeek, ?_⟩
    rw [hpeek]
    exact atEndForGood_iff hend
  · have hcontents : (Source.ofReads (before ++ .failed error :: after)).contents =
        before.flatMap Source.symbolsOf ++ after.flatMap Source.symbolsOf := by
      simp [Source.ofReads, Source.contents, Source.symbolsOf]
    constructor
    · intro h
      obtain ⟨t, ht, hall⟩ :=
        exists_reaches_all (s := ofSource (.ofReads (before ++ .failed error :: after))) rfl
      have hprefix := h t ht
      rw [hall, show (ofSource (.ofReads (before ++ .failed error :: after))).source.contents = _ from
        hcontents] at hprefix
      have hlength := hprefix.length_le
      simp only [List.length_append] at hlength
      exact List.eq_nil_of_length_eq_zero (by omega)
    · intro h t ht
      have hall := contents_steps ht.steps
      rw [show (ofSource (.ofReads (before ++ .failed error :: after))).source.contents = _ from
        hcontents, h] at hall
      exact ⟨t.source.contents, by simpa [ofSource] using hall⟩

/-- A failure between two deliveries ends the input for one look, one behind all of them for good. -/
theorem failed_read_ends_input_iff_of_delivery_behind :
    (∃ s : Scanner UInt8, s.position = s.buffer.size ∧
        s.source.pull = .failed "disk" ⟨[], [.data [98]]⟩ ∧ ¬ s.peek.2.AtEndForGood) ∧
      ∃ s : Scanner UInt8, s.position = s.buffer.size ∧
        s.source.pull = .failed "disk" ⟨[], [.data []]⟩ ∧ s.peek.2.AtEndForGood := by
  let between : Scanner UInt8 :=
    ⟨#[97], ⟨[], [.interrupted, .failed "disk", .data [98]]⟩, [0], 1, #[]⟩
  let behind : Scanner UInt8 := ⟨#[97], ⟨[], [.failed "disk", .data []]⟩, [0], 1, #[]⟩
  refine ⟨⟨between, rfl, rfl, fun h => ?_⟩, ⟨behind, rfl, rfl, ?_⟩⟩
  · have hiff := (failed_read_ends_input_iff.1 between "disk" ⟨[], [.data [98]]⟩ rfl rfl).2
    simpa [Source.contents, Source.symbolsOf] using hiff.mp h
  · exact (failed_read_ends_input_iff.1 behind "disk" ⟨[], [.data []]⟩ rfl rfl).2.mpr rfl

/-- A scanner over reads of which the first fails, and the second delivers: the failure answers the
first look, and the second look answers and buffers a symbol. -/
theorem symbol_behind_failed_read :
    ∃ s t : Scanner UInt8, s = ofSource (.ofReads [.failed "disk", .data [97]]) ∧ s.peek = (none, t) ∧
      t.records = #[.readFailed "disk"] ∧ Reaches s t ∧ t.position = t.buffer.size ∧
      t.peek.1 = some 97 ∧ t.peek.2.buffer = #[97] :=
  ⟨_, _, rfl, rfl, rfl, .step .refl (.peek _), rfl, rfl, rfl⟩

end Abnf.Scanner
