import Abnf.Misuse
import Abnf.Record
import Abnf.Source
import Abnf.Span
import Abnf.Symbol
import Abnf.Text.Layout

/-!
# Abnf.Scanner — a lazy cursor over a source, with marks to go back to

Symbols are pulled from the source on demand and kept in a buffer, so that any earlier position can
be visited again.  A mark saves the position; it is resolved by `commit`, which keeps what was
consumed since, or by `rollback`, which goes back.  An operation that fails leaves the scanner as it
was.
-/

namespace Abnf

/-- A source together with what was read from it, the position, and the marks. -/
structure Scanner (α : Type) where
  /-- The symbols read so far. -/
  buffer : Array α
  /-- The symbols to come. -/
  source : Source α
  /-- The saved positions, the latest first. -/
  marks : List Nat
  /-- The index of the current symbol. -/
  position : Nat
  /-- What has been reported so far. -/
  records : Array Record
  deriving DecidableEq, Repr

namespace Scanner

variable {α : Type}

/-- A scanner at the beginning of a source. -/
def ofSource (source : Source α) : Scanner α := ⟨#[], source, [], 0, #[]⟩

/-- Reports an event. -/
def report (s : Scanner α) (record : Record) : Scanner α :=
  { s with records := s.records.push record }

/-- The current symbol, which is pulled from the source when the position is at the end of the
buffer.  The position stays.  A read that fails is reported and counts as the end of the input. -/
def peek (s : Scanner α) : Option α × Scanner α :=
  if s.position = s.buffer.size then
    match s.source.pull with
    | .symbol symbol rest => (some symbol, { s with buffer := s.buffer.push symbol, source := rest })
    | .endOfInput rest => (none, { s with source := rest })
    | .failed error rest => (none, { s with source := rest }.report (.readFailed error))
  else (s.buffer[s.position]?, s)

/-- Moves past the current symbol, which has to be in the buffer, and answers its span. -/
def advance (s : Scanner α) : Except Misuse Span × Scanner α :=
  if s.position < s.buffer.size then
    (.ok ⟨s.position, s.position + 1⟩, { s with position := s.position + 1 })
  else (.error (.advancePastBuffer s.position), s)

/-- Saves the position. -/
def pushMark (s : Scanner α) : Scanner α := { s with marks := s.position :: s.marks }

/-- Goes back to the latest mark and forgets it. -/
def rollback (s : Scanner α) : Except Misuse Unit × Scanner α :=
  match s.marks with
  | [] => (.error (.unbalancedMark .rollback s.position), s)
  | mark :: marks =>
    (.ok (), { s.report (.rolledBack s.position mark) with position := mark, marks := marks })

/-- Forgets the latest mark and answers the span consumed since. -/
def commit (s : Scanner α) : Except Misuse Span × Scanner α :=
  match s.marks with
  | [] => (.error (.unbalancedMark .commit s.position), s)
  | mark :: marks => (.ok ⟨mark, s.position⟩, { s with marks := marks })

/-- The number of marks. -/
def depth (s : Scanner α) : Nat := s.marks.length

/-- The buffered symbols that a span covers, both its ends being clamped to the buffer. -/
def slice (s : Scanner α) (span : Span) : List α :=
  let stop := min span.stop s.buffer.size
  (s.buffer.extract (min span.start stop) stop).toList

/-- The buffered symbols that a span covers, as text. -/
def text [Symbol α] (s : Scanner α) (span : Span) : String := Symbol.text (s.slice span)

/-- The reports so far, and the scanner without them. -/
def takeRecords (s : Scanner α) : List Record × Scanner α :=
  (s.records.toList, { s with records := #[] })

/-- The scanner's buffer, marks (the earliest first) and position. -/
def layout [Symbol α] (s : Scanner α) : Text.Layout :=
  .record "Scanner"
    [("buffer", .list (s.buffer.toList.map fun symbol => .atom (Symbol.describe symbol))),
      ("markers", .list (s.marks.reverse.map fun mark => .atom (toString mark))),
      ("position", .atom (toString s.position))]
    true

end Scanner

end Abnf
