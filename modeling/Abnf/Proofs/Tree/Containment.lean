import Abnf.Proofs.Tree.Journal

/-!
# Abnf.Proofs.Tree.Containment — parts that answer anything do no harm

The parts of a concatenation or a repetition may be any functions that come to an end: their
candidates need not be prefixes of the input, nor even fit into it.  Still nothing beyond the input is
reached, what is answered is a prefix, and a candidate that is too long is never passed over.

* `Contained`: what is asked of a combinator, in terms of its journal.
* `Parser.contains_any_parts`: concatenation and repetition have it.
-/

namespace Abnf.Tree

/-- What a combinator called `key` comes to on an input, whatever its parts answer: `t` is the trial,
and `j` the journal in which no slice and no offset is taken for granted. -/
structure Contained (key : String) (parts : List Parser) (input : List UInt8)
    (j : Journal Candidates) (t : Trial Candidates) : Prop where
  /-- No slice is out of range and no offset above the limit. -/
  inRange : j.result = some t
  ends : t ≠ .unfinished
  /-- There is at most one node, over as much of the input as its children are long. -/
  oneNode : ∀ found records, t = .done found records → found = .empty ∨
    ∃ children, Node.lengthList children ≤ input.length ∧
      found = .single ⟨key, input.take (Node.lengthList children), children⟩
  applied : ∀ a ∈ j.applications, (∃ p ∈ parts, a.answer = p a.rest) ∧ a.rest <:+ input
  /-- A candidate that is too long is found out, wherever it stands among the others. -/
  overlong : ∀ a ∈ j.applications, ∀ found records, a.answer = .done found records →
    ∀ n ∈ found.nodes, a.rest.length < n.length → ∃ misuse later, t = .failed misuse later
  /-- A misuse is that of a part, or names a candidate that was too long. -/
  cause : ∀ misuse records, t = .failed misuse records → ∃ a ∈ j.applications, a.Causes misuse

/-- An application of one of the parts to a rest of the input. -/
def Application.IsOf (parts : List Parser) (input : List UInt8) (a : Application) : Prop :=
  (∃ p ∈ parts, a.answer = p a.rest) ∧ a.rest <:+ input

variable {key : String} {parts : List Parser} {input : List UInt8} {limit : Nat}

theorem Application.isOf_of {p : Parser} (hp : p ∈ parts) (offset : Nat) :
    (Application.of p (input.drop offset)).IsOf parts input :=
  ⟨⟨p, hp, rfl⟩, List.drop_suffix _ _⟩

theorem Journal.Accounts.contained {j : Journal Candidates} {t : Trial Candidates}
    (h : j.Accounts (Application.IsOf parts input) [] t)
    (hparts : ∀ p ∈ parts, ∀ rest, p rest ≠ .unfinished)
    (hnode : ∀ found records, t = .done found records → found = .empty ∨
      ∃ children, Node.lengthList children ≤ input.length ∧
        found = .single ⟨key, input.take (Node.lengthList children), children⟩) :
    Contained key parts input j t := by
  have hends : t ≠ .unfinished := by
    intro ht
    obtain ⟨a, ha, hanswer⟩ := h.ends ht
    obtain ⟨⟨p, hp, happlied⟩, -⟩ := h.known a ha
    exact hparts p hp a.rest (happlied.symm.trans hanswer)
  refine ⟨h.result, hends, hnode, h.known, fun a ha found records hanswer n hn hlong => ?_, h.cause⟩
  cases t with
  | done value later =>
    have hfits := h.fits value later rfl a ha found records hanswer n hn
    omega
  | failed misuse later => exact ⟨misuse, later, rfl⟩
  | unfinished => exact absurd rfl hends

namespace Parser

theorem oneNode_of_concat {found : Candidates} {records : List Record}
    (h : concat key parts input = .done found records) : found = .empty ∨
      ∃ children, Node.lengthList children ≤ input.length ∧
        found = .single ⟨key, input.take (Node.lengthList children), children⟩ := by
  obtain ⟨_, -, ⟨-, hnone⟩ | ⟨children, -, hle, hone⟩⟩ := concat_done h
  · exact .inl hnone
  · exact .inr ⟨children, hle, hone⟩

theorem oneNode_of_repetition {b : Bounds} {p : Parser} {found : Candidates} {records : List Record}
    (h : repetition key b p input = .done found records) : found = .empty ∨
      ∃ children, Node.lengthList children ≤ input.length ∧
        found = .single ⟨key, input.take (Node.lengthList children), children⟩ := by
  obtain ⟨nodes⟩ := found
  rcases repetition_done h with
    ⟨-, rfl⟩ | ⟨-, children, _, hsteps, ⟨-, rfl⟩ | ⟨-, rfl⟩⟩
  · exact .inl rfl
  · exact .inl rfl
  · exact .inr ⟨children, (combination_of_steps hsteps).lengthList_le, rfl⟩

/-- **Concatenation and repetition contain what their parts answer.**  The parts are any functions
that come to an end, and the input is no longer than offsets can count. -/
theorem contains_any_parts (key : String) (hlimit : input.length ≤ limit)
    (hparts : ∀ p ∈ parts, ∀ rest, p rest ≠ .unfinished) :
    Contained key parts input (Journal.concat limit key parts input) (concat key parts input) ∧
      ∀ p ∈ parts, ∀ b : Bounds,
        Contained key [p] input (Journal.repetition limit key b p input)
          (repetition key b p input) := by
  refine ⟨?_, fun p hp b => ?_⟩
  · refine Journal.Accounts.contained ?_ hparts fun _ _ => oneNode_of_concat
    exact Journal.accounts_concat hlimit fun p hp offset _ => Application.isOf_of hp offset
  · have hends : ∀ q ∈ [p], ∀ rest, q rest ≠ .unfinished := by
      intro q hq
      obtain rfl := List.mem_singleton.mp hq
      exact hparts q hp
    refine Journal.Accounts.contained ?_ hends fun _ _ => oneNode_of_repetition
    exact Journal.accounts_repetition hlimit fun offset _ =>
      Application.isOf_of (List.mem_singleton_self p) offset

/-- A part whose candidates are the first byte, nothing, and nine bytes. -/
def mixed : Parser := fun rest =>
  .done ⟨[.leaf "first" (rest.take 1), .leaf "nothing" [], .leaf "long" (List.replicate 9 0)]⟩ []

/-- The candidate of nine bytes stands behind others that fit, and is found out where it is first
looked at: behind the first byte in a concatenation, as the best one in a repetition. -/
theorem contains_any_parts_of_mixed :
    (∃ a ∈ (Journal.concat (UInt64.size - 1) "pair" [mixed, mixed] [1, 2]).applications,
        a.Causes (.overlongNode "long" 9 1)) ∧
      ∃ a ∈ (Journal.repetition (UInt64.size - 1) "run" ⟨1, none⟩ mixed [1, 2]).applications,
        a.Causes (.overlongNode "long" 9 2) := by
  have hparts : ∀ p ∈ [mixed, mixed], ∀ rest, p rest ≠ .unfinished := by
    intro p hp rest
    obtain rfl : p = mixed := by simpa using hp
    exact nofun
  have hpair : concat "pair" [mixed, mixed] [1, 2] = .failed (.overlongNode "long" 9 1) [] := by
    decide +kernel
  have hrun : repetition "run" ⟨1, none⟩ mixed [1, 2] = .failed (.overlongNode "long" 9 2) [] := by
    decide +kernel
  have hlimit : [1, 2].length ≤ UInt64.size - 1 := by decide
  exact ⟨(contains_any_parts "pair" hlimit hparts).1.cause _ _ hpair,
    ((contains_any_parts "run" hlimit hparts).2 mixed (by simp) _).cause _ _ hrun⟩

end Parser

end Abnf.Tree
