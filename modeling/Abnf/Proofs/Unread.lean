import Abnf.Proofs.Exchange
import Abnf.Rule.Routine

/-!
# Abnf.Proofs.Unread — input that was not read has no influence

A parse that has read less than its input has not seen the end of it either.  So every decision it made
is about the symbols it has read, and it would have decided alike over any input that begins with them,
even over one that ends there.

* `Rule.parse_of_unread`: the same answer, after reading as much, with the same records.
-/

namespace Abnf

variable {α : Type}

/-- Until `limit` symbols are buffered both sources answer the same, and behind that the first one has
more. -/
def Source.AlikeUpTo (limit k : Nat) (a b : Source α) : Prop :=
  ∃ common u v : List α, k + common.length = limit ∧ u ≠ [] ∧ a.Delivers (common ++ u) ∧
    b.Delivers (common ++ v)

/-- Where the second source may be at its end, another pull would take the first one beyond the limit. -/
theorem Source.exchangeable_alikeUpTo (limit : Nat) :
    Exchangeable (AlikeUpTo (α := α) limit) limit := by
  rintro k a b ⟨common, u, v, hk, hu, ha, hb⟩ hlimit
  cases common with
  | nil =>
    obtain ⟨symbol, u, rfl⟩ := List.exists_cons_of_ne_nil hu
    obtain ⟨next, hpull, -⟩ := ha
    have hlt : k < limit := hlimit symbol next hpull
    rw [List.length_nil] at hk
    omega
  | cons symbol common =>
    obtain ⟨a', hpa, ha⟩ := ha
    obtain ⟨b', hpb, hb⟩ := hb
    rw [hpa, hpb]
    rw [List.length_cons] at hk
    exact .symbol symbol ⟨common, u, v, by omega, hu, ha, hb⟩

namespace Rule

variable [Symbol α] {g : Grammar (Rule α)} {fuel : Nat} {reporting : Bool} {rule : Rule α}
  {a b : Source α} {u v : List α} {answer : Answer α} {s : Scanner α}

/-- **What was not read cannot influence a parse.**  If a parse ends before it has read all of its input,
then over any other input that begins with the symbols that it has read, it ends with the same answer
or failure, has read as much, and reports the same. -/
theorem parse_of_unread (ha : a.Delivers u) (hb : b.Delivers v)
    (h : rule.parse g fuel reporting a = some (answer, s)) (hunread : s.buffer.size < u.length)
    (hsame : u.take s.buffer.size <+: v) :
    ∃ t, rule.parse g fuel reporting b = some (answer, t) ∧ t.buffer = s.buffer ∧
      t.records = s.records := by
  have hrest : u.drop s.buffer.size ≠ [] := by
    intro hnil
    rw [List.drop_eq_nil_iff] at hnil
    omega
  obtain ⟨more, rfl⟩ := hsame
  have halike : Source.AlikeUpTo s.buffer.size 0 a b := by
    refine ⟨u.take s.buffer.size, u.drop s.buffer.size, more, ?_, hrest, ?_, hb⟩
    · rw [List.length_take, Nat.zero_add, Nat.min_eq_left hunread.le]
    · rwa [List.take_append_drop]
  obtain ⟨t, ht, htwin⟩ := parse_twin (Source.exchangeable_alikeUpTo _) halike h le_rfl
  rw [htwin.eq_withSource] at ht
  exact ⟨_, ht, rfl, rfl⟩

/-- A literal is given up, a repetition looks one symbol ahead, and a custom rule takes that symbol: the
same over an input that ends there. -/
theorem parse_of_unread_of_end :
    ∃ t : Scanner Char,
      (choice [.literal ['a', 'a', 'x'], .concat [.zeroOrMore (.symbol 'a'),
          .routine [.mark, .need, .advance, .commit] .last]]).parse .empty 6 true
            (.ofList ['a', 'a', 'b']) = some (.matched ['a', 'a', 'b'], t) ∧
      t.records = #[.rolledBack 2 0, .matched 3] := by
  have happly : (choice [.literal ['a', 'a', 'x'], .concat [.zeroOrMore (.symbol 'a'),
      .routine [.mark, .need, .advance, .commit] .last]]).apply .empty 6
        (.ofSource (.ofList ['a', 'a', 'b', '-', 'c'])) =
          some (.matched ⟨0, 3⟩,
            ⟨#['a', 'a', 'b'], .ofList ['-', 'c'], [], 3, #[.rolledBack 2 0]⟩) := rfl
  have hparse : (choice [.literal ['a', 'a', 'x'], .concat [.zeroOrMore (.symbol 'a'),
      .routine [.mark, .need, .advance, .commit] .last]]).parse .empty 6 true
        (.ofList ['a', 'a', 'b', '-', 'c']) =
          some (.matched ['a', 'a', 'b'],
            ⟨#['a', 'a', 'b'], .ofList ['-', 'c'], [], 3, #[.rolledBack 2 0, .matched 3]⟩) := by
    rw [parse, happly]
    rfl
  obtain ⟨t, ht, -, hrecords⟩ := parse_of_unread (Source.delivers_ofList _)
    (Source.delivers_ofList ['a', 'a', 'b']) hparse (by simp) (by simp)
  exact ⟨t, ht, hrecords⟩

end Rule

end Abnf
