/-!
# Abnf.Text.Quoted — characters and strings between quotes

The written form of a text in descriptions of values: backslash escapes for the usual controls, the
backslash and the surrounding quote; `\u` and a braced hexadecimal number for every other control;
all else as itself.
-/

namespace Abnf.Text.Quoted

/-- The C0 controls, DEL, and the C1 controls. -/
def isControl (c : Char) : Bool :=
  c.toNat < 0x20 || (0x7F ≤ c.toNat && c.toNat < 0xA0)

/-- One character inside a text that is surrounded by `quote`. -/
def escape (quote c : Char) : String :=
  if c = '\x00' then "\\0"
  else if c = '\t' then "\\t"
  else if c = '\r' then "\\r"
  else if c = '\n' then "\\n"
  else if c = '\\' then "\\\\"
  else if c = quote then String.ofList ['\\', c]
  else if isControl c then "\\u\x7b" ++ String.ofList (Nat.toDigits 16 c.toNat) ++ "\x7d"
  else c.toString

/-- A text between two `quote`s. -/
def encode (quote : Char) (text : List Char) : String :=
  let q := quote.toString
  q ++ String.join (text.map (escape quote)) ++ q

/-- A string, between double quotes. -/
def ofString (s : String) : String := encode '"' s.toList

/-- A character, between single quotes. -/
def ofChar (c : Char) : String := encode '\'' [c]

end Abnf.Text.Quoted
