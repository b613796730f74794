import Abnf.Text.Quoted
import Abnf.Text.Utf8

/-!
# Abnf.Symbol — what rules match: characters and bytes

Rules see a symbol only through its code.  Codes tell symbols apart and order them, and a letter and
its lower-case form differ in the code as in ASCII, so that characters and bytes of the same codes
are matched alike.
-/

namespace Abnf

/-- The code of the lower-case form: A–Z go to a–z, all else stays. -/
def lowerCode (n : Nat) : Nat := if 65 ≤ n ∧ n ≤ 90 then n + 32 else n

/-- A kind of symbol that rules can match. -/
class Symbol (α : Type) where
  /-- The number that stands for the symbol. -/
  code : α → Nat
  /-- Symbols with the same code are the same. -/
  code_inj : ∀ {a b : α}, code a = code b → a = b
  /-- The lower-case form of an ASCII letter, and any other symbol itself. -/
  lower : α → α
  /-- Lower case is a matter of codes. -/
  code_lower : ∀ a, code (lower a) = lowerCode (code a)
  /-- A sequence of symbols as text. -/
  text : List α → String
  /-- How a single symbol is described. -/
  describe : α → String

namespace Symbol

variable {α : Type} [Symbol α]

/-- Whether two symbols are the same. -/
def same (a b : α) : Bool := code a == code b

/-- Whether two symbols are the same but for the case of an ASCII letter. -/
def sameButCase (a b : α) : Bool := same (lower a) (lower b)

/-- Whether a symbol lies between two others, both included. -/
def between (low high a : α) : Bool := code low ≤ code a && code a ≤ code high

@[simp] theorem same_iff {a b : α} : same a b = true ↔ a = b := by
  simp only [same, beq_iff_eq]
  exact ⟨code_inj, fun h => h ▸ rfl⟩

theorem sameButCase_iff {a b : α} : sameButCase a b = true ↔ lower a = lower b := same_iff

end Symbol

instance : Symbol Char where
  code := Char.toNat
  code_inj h := Char.toNat_inj.mp h
  lower c := Char.ofNat (lowerCode c.toNat)
  code_lower c := by
    unfold lowerCode
    split
    · have h : (c.toNat + 32).isValidChar := Or.inl (by omega)
      rw [Char.ofNat, dif_pos h]
      rfl
    · rw [Char.ofNat_toNat]
  text := String.ofList
  describe := Text.Quoted.ofChar

instance : Symbol UInt8 where
  code := UInt8.toNat
  code_inj h := UInt8.toNat_inj.mp h
  lower b := UInt8.ofNat (lowerCode b.toNat)
  code_lower b := by
    have h := b.toNat_lt
    rw [UInt8.toNat_ofNat']
    unfold lowerCode
    split <;> omega
  text := Text.Utf8.decodeLossy
  describe b := toString b.toNat

end Abnf
