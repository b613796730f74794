import Abnf.Rule

/-!
# Abnf.Rule.Core — the core rules of ABNF

The basic rules that ABNF grammars share, over characters.  Quoted letters match in either case, so
`hexdig` takes `a`–`f` as well as `A`–`F`.
-/

namespace Abnf.Rule.Core

/-- A letter: `ALPHA = %x41-5A / %x61-7A`. -/
def alpha : Rule Char := .choice [.range 'A' 'Z', .range 'a' 'z']

/-- A binary digit: `BIT = "0" / "1"`. -/
def bit : Rule Char := .oneOf ['0', '1']

/-- A 7-bit character other than NUL: `CHAR = %x01-7F`. -/
def char : Rule Char := .range '\x01' '\x7f'

/-- A carriage return: `CR = %x0D`. -/
def cr : Rule Char := .symbol '\r'

/-- A line feed: `LF = %x0A`. -/
def lf : Rule Char := .symbol '\n'

/-- The end of a line: `CRLF = CR LF`. -/
def crlf : Rule Char := .concat [cr, lf]

/-- A control: `CTL = %x00-1F / %x7F`. -/
def ctl : Rule Char := .choice [.range '\x00' '\x1f', .symbol '\x7f']

/-- A decimal digit: `DIGIT = %x30-39`. -/
def digit : Rule Char := .range '0' '9'

/-- A double quote: `DQUOTE = %x22`. -/
def dquote : Rule Char := .symbol '"'

/-- A hexadecimal digit: `HEXDIG = DIGIT / "A" / "B" / "C" / "D" / "E" / "F"`. -/
def hexdig : Rule Char := .choice [digit, .range 'A' 'F', .range 'a' 'f']

/-- A horizontal tab: `HTAB = %x09`. -/
def htab : Rule Char := .symbol '\t'

/-- A space: `SP = %x20`. -/
def sp : Rule Char := .symbol ' '

/-- White space: `WSP = SP / HTAB`. -/
def wsp : Rule Char := .choice [sp, htab]

/-- Linear white space: `LWSP = *(WSP / CRLF WSP)`. -/
def lwsp : Rule Char := zeroOrMore (.choice [wsp, .concat [crlf, wsp]])

/-- Any 8 bits: `OCTET = %x00-FF`. -/
def octet : Rule Char := .range '\x00' '\xff'

/-- A visible character: `VCHAR = %x21-7E`. -/
def vchar : Rule Char := .range '!' '~'

/-- The core rule of a name, in lower case. -/
def named? (name : String) : Option (Rule Char) :=
  [("alpha", alpha), ("bit", bit), ("char", char), ("cr", cr), ("crlf", crlf), ("ctl", ctl),
    ("digit", digit), ("dquote", dquote), ("hexdig", hexdig), ("htab", htab), ("lf", lf),
    ("lwsp", lwsp), ("octet", octet), ("sp", sp), ("vchar", vchar), ("wsp", wsp)].lookup name

end Abnf.Rule.Core
