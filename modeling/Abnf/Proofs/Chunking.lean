import Abnf.Proofs.Session
import Abnf.Rule.Routine

/-!
# Abnf.Proofs.Chunking — where the reads are cut does not matter

Reads may deliver an input whole or in pieces of any lengths, and interruptions may stand anywhere among
them.  As long as none of them fails, and none answers the end of the input before it is there, each
pull answers as it does of a source that holds the input from the beginning (`Source.Supplies`).

* `Source.supplies_of_chunking`: what pulls of such reads answer.
* `Source.chunking_invisible`: parses and sessions are the same as over the whole input.
-/

namespace Abnf

variable {α : Type}

namespace Source

/-- The reads deliver the input in pieces.  None fails, and behind an end of the input nothing more is
delivered; an interruption may come at any time. -/
structure Chunking (reads : List (Read α)) (input : List α) : Prop where
  noFailure : ∀ error, .failed error ∉ reads
  delivered : reads.flatMap symbolsOf = input
  end_last : ∀ before behind, reads = before ++ .data [] :: behind → behind.flatMap symbolsOf = []

theorem chunking_nil : Chunking ([] : List (Read α)) [] :=
  ⟨by simp, rfl, by simp⟩

theorem Chunking.cons {reads : List (Read α)} {input : List α} (h : Chunking reads input)
    (read : Read α) (hread : ∀ error, read ≠ .failed error)
    (hend : read = .data [] → input = []) : Chunking (read :: reads) (symbolsOf read ++ input) := by
  refine ⟨fun error hmem => ?_, by rw [List.flatMap_cons, h.delivered], fun before behind heq => ?_⟩
  · rcases List.mem_cons.mp hmem with heq | hmem
    · exact hread error heq.symm
    · exact h.noFailure error hmem
  · cases before with
    | nil =>
      cases heq
      exact h.delivered.trans (hend rfl)
    | cons first before =>
      cases heq
      exact h.end_last before behind rfl

theorem Chunking.tail {read : Read α} {reads : List (Read α)} {input : List α}
    (h : Chunking (read :: reads) input) : Chunking reads (reads.flatMap symbolsOf) := by
  refine ⟨fun error hmem => h.noFailure error (List.mem_cons_of_mem _ hmem), rfl, ?_⟩
  rintro before behind rfl
  exact h.end_last (read :: before) behind rfl

/-- The source answers the symbols of the input, one a pull, and then the end of it for ever; no read
fails. -/
structure Supplies (source : Source α) (input : List α) : Prop where
  delivers : source.Delivers input
  noFailure : ∀ error, .failed error ∉ source.reads

theorem supplies_ofList (input : List α) : (ofList input).Supplies input :=
  ⟨delivers_ofList input, fun _ h => nomatch h⟩

/-- What was delivered comes before the reads. -/
theorem delivers_append {reads : List (Read α)} {input : List α}
    (h : (⟨[], reads⟩ : Source α).Delivers input) (delivered : List α) :
    (⟨delivered, reads⟩ : Source α).Delivers (delivered ++ input) := by
  induction delivered with
  | nil => exact h
  | cons symbol more ih => exact ⟨⟨more, reads⟩, rfl, ih⟩

/-- An interrupted read is as good as none. -/
theorem delivers_interrupted {reads : List (Read α)} {input : List α}
    (h : (⟨[], reads⟩ : Source α).Delivers input) :
    (⟨[], .interrupted :: reads⟩ : Source α).Delivers input := by
  cases input with
  | nil => exact h
  | cons symbol rest => exact h

theorem Chunking.delivers {reads : List (Read α)} {input : List α} (h : Chunking reads input) :
    (⟨[], reads⟩ : Source α).Delivers input := by
  induction reads generalizing input with
  | nil =>
    cases h.delivered
    rfl
  | cons read reads ih =>
    have hrest := ih h.tail
    cases h.delivered
    cases read with
    | data symbols =>
      cases symbols with
      | nil =>
        have hnone : reads.flatMap symbolsOf = [] := h.end_last [] reads rfl
        rw [show (Read.data [] :: reads).flatMap symbolsOf = [] from hnone]
        exact hnone
      | cons symbol more => exact ⟨⟨more, reads⟩, rfl, delivers_append hrest more⟩
    | failed error => exact absurd List.mem_cons_self (h.noFailure error)
    | interrupted => exact delivers_interrupted hrest

theorem supplies_of_chunking {reads : List (Read α)} {input : List α} (h : Chunking reads input) :
    (ofReads reads).Supplies input :=
  ⟨h.delivers, h.noFailure⟩

/-! ### Pulls -/

theorem reads_rest_pullReads (reads : List (Read α)) : (pullReads reads).rest.reads <:+ reads := by
  fun_induction pullReads reads with
  | case1 => exact List.suffix_rfl
  | case2 rest => exact List.suffix_cons _ rest
  | case3 symbol more rest => exact List.suffix_cons _ rest
  | case4 error rest => exact List.suffix_cons _ rest
  | case5 rest ih => exact ih.trans (List.suffix_cons _ rest)

/-- A pull makes the first of the reads to come, or none. -/
theorem reads_rest_pull (source : Source α) : source.pull.rest.reads <:+ source.reads := by
  obtain ⟨_ | ⟨symbol, more⟩, reads⟩ := source
  · exact reads_rest_pullReads reads
  · exact List.suffix_rfl

theorem mem_of_pullReads_failed {reads : List (Read α)} {error : String} {rest : Source α}
    (h : pullReads reads = .failed error rest) : .failed error ∈ reads := by
  fun_induction pullReads reads with
  | case4 error rest =>
    cases h
    exact List.mem_cons_self
  | case5 rest ih => exact List.mem_cons_of_mem _ (ih h)
  | case1 | case2 | case3 => cases h

variable {source : Source α} {input : List α}

theorem Supplies.noFailure_rest (h : source.Supplies input) (error : String) :
    .failed error ∉ source.pull.rest.reads :=
  fun hmem => h.noFailure error ((reads_rest_pull source).subset hmem)

theorem Supplies.pull_cons {symbol : α} (h : source.Supplies (symbol :: input)) :
    ∃ next, source.pull = .symbol symbol next ∧ next.Supplies input := by
  have hfail := h.noFailure_rest
  obtain ⟨next, hpull, hnext⟩ := h.delivers
  rw [hpull] at hfail
  exact ⟨next, hpull, hnext, hfail⟩

theorem Supplies.pull_nil (h : source.Supplies []) :
    ∃ next, source.pull = .endOfInput next ∧ next.Supplies [] := by
  have hfail := h.noFailure_rest
  obtain ⟨hnone, hrest⟩ := h.delivers.pull_nil
  cases hpull : source.pull with
  | symbol symbol next => simp [hpull, Pulled.symbol?] at hnone
  | endOfInput next =>
    rw [hpull] at hfail hrest
    exact ⟨next, rfl, hrest, hfail⟩
  | failed error next =>
    obtain ⟨_ | ⟨symbol, more⟩, reads⟩ := source
    · exact absurd (mem_of_pullReads_failed hpull) (h.noFailure error)
    · cases hpull

/-! ### Sources of one input -/

/-- Both sources supply the same. -/
def SameSupply (_ : Nat) (a b : Source α) : Prop := ∃ input, a.Supplies input ∧ b.Supplies input

theorem exchangeable_sameSupply (limit : Nat) : Exchangeable (SameSupply (α := α)) limit := by
  rintro k a b ⟨_ | ⟨symbol, input⟩, ha, hb⟩ -
  · obtain ⟨a', hpa, ha'⟩ := ha.pull_nil
    obtain ⟨b', hpb, hb'⟩ := hb.pull_nil
    rw [hpa, hpb]
    exact .endOfInput ⟨[], ha', hb'⟩
  · obtain ⟨a', hpa, ha'⟩ := ha.pull_cons
    obtain ⟨b', hpb, hb'⟩ := hb.pull_cons
    rw [hpa, hpb]
    exact .symbol symbol ⟨input, ha', hb'⟩

theorem SameSupply.symm (k : Nat) (a b : Source α) (h : SameSupply k a b) : SameSupply k b a := by
  obtain ⟨input, ha, hb⟩ := h
  exact ⟨input, hb, ha⟩

variable [Symbol α]

/-- Sources of one input parse alike. -/
theorem SameSupply.parse {a b : Source α} (h : SameSupply 0 a b) {g : Grammar (Rule α)} {fuel : Nat}
    {reporting : Bool} {rule : Rule α} {answer : Answer α} {s : Scanner α}
    (hparse : rule.parse g fuel reporting a = some (answer, s)) :
    ∃ t, rule.parse g fuel reporting b = some (answer, t) ∧ t.records = s.records := by
  obtain ⟨t, ht, htwin⟩ := Rule.parse_twin (exchangeable_sameSupply _) h hparse le_rfl
  exact ⟨t, ht, htwin.records_eq⟩

/-- **How an input is cut into reads is invisible.**  Over reads that deliver an input in pieces, with
interruptions anywhere, every parse ends if and only if it ends over the whole input, with the same
answer or failure and the same records; and in every session with a scanner, the same is seen after
each use. -/
theorem chunking_invisible {reads : List (Read α)} {input : List α} (h : Chunking reads input) :
    (∀ (g : Grammar (Rule α)) fuel reporting (rule : Rule α),
        (rule.parse g fuel reporting (.ofReads reads)).map (fun x => (x.1, x.2.records)) =
          (rule.parse g fuel reporting (.ofList input)).map fun x => (x.1, x.2.records)) ∧
      ∀ fuel (uses : List (Scanner.Use α)),
        Scanner.session fuel uses (.ofSource (.ofReads reads)) =
          Scanner.session fuel uses (.ofSource (.ofList input)) := by
  have hsame : SameSupply 0 (.ofReads reads) (.ofList input) :=
    ⟨input, supplies_of_chunking h, supplies_ofList input⟩
  refine ⟨fun g fuel reporting rule => ?_, fun fuel uses => ?_⟩
  · refine Option.ext fun seen => ?_
    simp only [Option.map_eq_some_iff]
    constructor
    · rintro ⟨⟨answer, s⟩, hs, rfl⟩
      obtain ⟨t, ht, hrecords⟩ := hsame.parse hs
      exact ⟨(answer, t), ht, by rw [hrecords]⟩
    · rintro ⟨⟨answer, s⟩, hs, rfl⟩
      obtain ⟨t, ht, hrecords⟩ := (SameSupply.symm _ _ _ hsame).parse hs
      exact ⟨(answer, t), ht, by rw [hrecords]⟩
  · exact Scanner.session_eq_of_twin exchangeable_sameSupply SameSupply.symm
      (Scanner.twin_ofSource hsame) uses

/-- Two pieces with interruptions about them, an end that is asked for again and again, a choice that
goes back, and a session that fails and goes on. -/
theorem chunking_invisible_of_interruptions :
    ((Rule.choice [.concat [.zeroOrMore (.symbol 97), .endOfInput],
        .concat [.exactly 2 (.symbol 97), .routine [.mark, .need, .advance, .commit, .peek, .peek] .last,
          .endOfInput]]).parse .empty 6 true
        (.ofReads [.interrupted, .data [97, 97], .interrupted, .data [98], .data [], .interrupted,
          .data []])).map (fun x => (x.1, x.2.records)) =
        some (.matched [(97 : UInt8), 97, 98], #[.rolledBack 2 0, .matched 3]) ∧
      Scanner.session 4 [.peek, .rollback, .apply .empty (.zeroOrMore (.symbol 97)), .peek, .advance, .peek]
          (.ofSource (.ofReads [.interrupted, .data [97, 97], .interrupted, .data [98], .data [],
            .interrupted, .data []])) =
        Scanner.session 4
          [.peek, .rollback, .apply .empty (.zeroOrMore (.symbol 97)), .peek, .advance, .peek]
          (.ofSource (.ofList [(97 : UInt8), 97, 98])) := by
  have hreads : Chunking [.interrupted, .data [97, 97], .interrupted, .data [98], .data [],
      .interrupted, .data []] [(97 : UInt8), 97, 98] :=
    ((((((chunking_nil.cons (.data []) (by simp) (by simp)).cons .interrupted (by simp) (by simp)).cons
      (.data []) (by simp) (by simp [symbolsOf])).cons (.data [98]) (by simp) (by simp)).cons
      .interrupted (by simp) (by simp)).cons (.data [97, 97]) (by simp) (by simp)).cons
      .interrupted (by simp) (by simp)
  obtain ⟨hparse, hsession⟩ := chunking_invisible hreads
  refine ⟨?_, hsession 4 _⟩
  have happly : (Rule.choice [.concat [.zeroOrMore (.symbol 97), .endOfInput],
      .concat [.exactly 2 (.symbol 97), .routine [.mark, .need, .advance, .commit, .peek, .peek] .last,
        .endOfInput]]).apply .empty 6 (.ofSource (.ofList [(97 : UInt8), 97, 98])) =
      some (.matched ⟨0, 3⟩, ⟨#[97, 97, 98], .ofList [], [], 3, #[.rolledBack 2 0]⟩) := rfl
  rw [hparse, Rule.parse, happly]
  rfl

end Source

end Abnf
