/-!
# Abnf.Text.Utf8 — reading bytes as UTF-8, replacing what is not

`decodeLossy` reads bytes left to right and never fails: every longest run of bytes that begins a
character but does not complete it becomes one U+FFFD, and the byte that broke the run off is read
again as the first byte of a character.
-/

namespace Abnf.Text.Utf8

/-- A character that has begun: the bits read so far, how many bytes are still owed, and the range
the next byte has to lie in. -/
structure Begun where
  bits : Nat
  owed : Nat
  low : Nat
  high : Nat

/-- What stands for bytes that are no character. -/
def replacement : Char := '\ufffd'

/-- Reads `b` as the first byte of a character: what is written at once, and what has begun.  The
narrower ranges keep out overlong forms, surrogates, and code points above U+10FFFF. -/
def first (b : Nat) : List Char × Option Begun :=
  if b ≤ 0x7F then ([Char.ofNat b], none)
  else if 0xC2 ≤ b ∧ b ≤ 0xDF then ([], some ⟨b - 0xC0, 1, 0x80, 0xBF⟩)
  else if b = 0xE0 then ([], some ⟨0, 2, 0xA0, 0xBF⟩)
  else if b = 0xED then ([], some ⟨0xD, 2, 0x80, 0x9F⟩)
  else if 0xE1 ≤ b ∧ b ≤ 0xEF then ([], some ⟨b - 0xE0, 2, 0x80, 0xBF⟩)
  else if b = 0xF0 then ([], some ⟨0, 3, 0x90, 0xBF⟩)
  else if 0xF1 ≤ b ∧ b ≤ 0xF3 then ([], some ⟨b - 0xF0, 3, 0x80, 0xBF⟩)
  else if b = 0xF4 then ([], some ⟨4, 3, 0x80, 0x8F⟩)
  else ([replacement], none)

/-- Reads one byte after what has begun. -/
def step : Option Begun → Nat → List Char × Option Begun
  | none, b => first b
  | some c, b =>
    if c.low ≤ b ∧ b ≤ c.high then
      let bits := c.bits * 64 + (b - 0x80)
      if c.owed ≤ 1 then ([Char.ofNat bits], none)
      else ([], some ⟨bits, c.owed - 1, 0x80, 0xBF⟩)
    else
      let (written, begun) := first b
      (replacement :: written, begun)

/-- The characters of the bytes that follow what has begun. -/
def decodeFrom (begun : Option Begun) : List UInt8 → List Char
  | [] => if begun.isSome then [replacement] else []
  | b :: rest =>
    let (written, begun) := step begun b.toNat
    written ++ decodeFrom begun rest

/-- The text of a byte sequence. -/
def decodeLossy (bytes : List UInt8) : String := String.ofList (decodeFrom none bytes)

end Abnf.Text.Utf8
