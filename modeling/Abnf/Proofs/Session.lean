import Abnf.Proofs.Exchange

/-!
# Abnf.Proofs.Session — what a user sees who puts a scanner to several uses

A session is a list of uses of one scanner, operations and applications of rules in any order.  A failed
use does not end it.  What is seen of it are the answers, the scanner's view after each use, and its
records.

* `Scanner.session_eq_of_twin`: over sources that do for each other, a session looks the same.
-/

namespace Abnf.Scanner

variable {α : Type} [Symbol α]

/-- One use of a scanner.  Each application comes with its grammar, so that nonterminals may be defined
between one and the next. -/
inductive Use (α : Type) where
  | peek
  | advance
  | pushMark
  | rollback
  | commit
  | slice (span : Span)
  | apply (g : Grammar (Rule α)) (rule : Rule α)

/-- What a use answers. -/
inductive Response (α : Type) where
  | symbol (symbol? : Option α)
  | span (result : Except Misuse Span)
  | done (result : Except Misuse Unit)
  | slice (symbols : List α)
  | outcome (outcome : Outcome)

/-- Puts a scanner to a use; an application comes to no end when the fuel does not suffice. -/
def respond (fuel : Nat) (s : Scanner α) : Use α → Option (Response α × Scanner α)
  | .peek => some (.symbol s.peek.1, s.peek.2)
  | .advance => some (.span s.advance.1, s.advance.2)
  | .pushMark => some (.done (.ok ()), s.pushMark)
  | .rollback => some (.done s.rollback.1, s.rollback.2)
  | .commit => some (.span s.commit.1, s.commit.2)
  | .slice span => some (.slice (s.slice span), s)
  | .apply g rule => (rule.apply g fuel s).map fun x => (.outcome x.1, x.2)

/-- What is seen of a scanner after a use of it. -/
structure Sight (α : Type) where
  response : Response α
  view : View α
  records : Array Record

/-- What is seen in a session, or nothing when one of the uses comes to no end. -/
def session (fuel : Nat) : List (Use α) → Scanner α → Option (List (Sight α))
  | [], _ => some []
  | use :: later, s =>
    match s.respond fuel use with
    | none => none
    | some (response, t) => (session fuel later t).map (⟨response, t.view, t.records⟩ :: ·)

variable {R : Nat → Source α → Source α → Prop} {s t : Scanner α} {fuel : Nat}

theorem respond_twin (hR : ∀ limit, Source.Exchangeable R limit) (h : Twin R s t) {use : Use α}
    {response : Response α} {u : Scanner α} (hs : s.respond fuel use = some (response, u)) :
    ∃ v, t.respond fuel use = some (response, v) ∧ Twin R u v := by
  cases use with
  | peek =>
    obtain ⟨hsame, htwin⟩ := h.peek (hR _) le_rfl
    cases hs
    exact ⟨_, by rw [respond, hsame], htwin⟩
  | advance =>
    cases hs
    exact ⟨_, by rw [respond, h.advance.1], h.advance.2⟩
  | pushMark =>
    cases hs
    exact ⟨_, rfl, h.pushMark⟩
  | rollback =>
    cases hs
    exact ⟨_, by rw [respond, h.rollback.1], h.rollback.2⟩
  | commit =>
    cases hs
    exact ⟨_, by rw [respond, h.commit.1], h.commit.2⟩
  | slice span =>
    cases hs
    exact ⟨t, by rw [respond, h.slice_eq], h⟩
  | apply g rule =>
    obtain ⟨⟨o, u'⟩, happly, hx⟩ := Option.map_eq_some_iff.mp hs
    cases hx
    obtain ⟨v, hv, htwin⟩ := Rule.apply_twin (hR _) g fuel rule _ _ _ _ h happly le_rfl
    exact ⟨v, by rw [respond, hv]; rfl, htwin⟩

theorem session_twin (hR : ∀ limit, Source.Exchangeable R limit) {uses : List (Use α)}
    {seen : List (Sight α)} (h : Twin R s t) (hs : session fuel uses s = some seen) :
    session fuel uses t = some seen := by
  induction uses generalizing s t seen with
  | nil => exact hs
  | cons use later ih =>
    rw [session] at hs ⊢
    cases hu : s.respond fuel use with
    | none => simp [hu] at hs
    | some x =>
      obtain ⟨response, u⟩ := x
      rw [hu] at hs
      obtain ⟨rest, hrest, rfl⟩ := Option.map_eq_some_iff.mp hs
      obtain ⟨v, hv, htwin⟩ := respond_twin hR h hu
      rw [hv]
      dsimp only
      rw [ih htwin hrest, htwin.view_eq, htwin.records_eq]
      rfl

/-- If each of two sources will do for the other, then a session over the one looks like the same session
over the other, and comes to an end if that does. -/
theorem session_eq_of_twin (hR : ∀ limit, Source.Exchangeable R limit)
    (hsymm : ∀ k a b, R k a b → R k b a) (h : Twin R s t) (uses : List (Use α)) :
    session fuel uses s = session fuel uses t :=
  Option.ext fun _ => ⟨session_twin hR h, session_twin hR (h.symm hsymm)⟩

end Abnf.Scanner
