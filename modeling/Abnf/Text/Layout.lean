/-!
# Abnf.Text.Layout — values written as lists and records

A `Layout` is the shape of a value's description.  It can be written on one line (`oneLine`) or
spread over several, one entry a line and four blanks a level (`spread`).
-/

namespace Abnf.Text

/-- The shape of a value's description. -/
inductive Layout where
  /-- A text that is written as it is. -/
  | atom (text : String)
  /-- Items between brackets. -/
  | list (items : List Layout)
  /-- Named fields between braces; an open record has more fields than it shows. -/
  | record (name : String) (fields : List (String × Layout)) (isOpen : Bool)

namespace Layout

mutual

/-- The description on one line. -/
def oneLine : Layout → String
  | .atom text => text
  | .list items => "[" ++ ", ".intercalate (oneLineItems items) ++ "]"
  | .record name fields isOpen =>
    name ++ " \x7b " ++
      ", ".intercalate (oneLineFields fields ++ if isOpen then [".."] else []) ++ " \x7d"

def oneLineItems : List Layout → List String
  | [] => []
  | item :: rest => oneLine item :: oneLineItems rest

def oneLineFields : List (String × Layout) → List String
  | [] => []
  | (name, value) :: rest => (name ++ ": " ++ oneLine value) :: oneLineFields rest

end

/-- Puts a comma behind the last line. -/
def closeEntry : List String → List String
  | [] => []
  | [line] => [line ++ ","]
  | line :: rest => line :: closeEntry rest

/-- One entry of a list or record: `before` in front of its first line, a comma behind its last. -/
def entry (before : String) : List String → List String
  | [] => []
  | line :: rest => (closeEntry ((before ++ line) :: rest)).map ("    " ++ ·)

mutual

/-- The lines of the description, one entry a line. -/
def lines : Layout → List String
  | .atom text => [text]
  | .list [] => ["[]"]
  | .list (item :: rest) => "[" :: (entry "" (lines item) ++ linesItems rest) ++ ["]"]
  | .record name fields isOpen =>
    (name ++ " \x7b") :: linesFields fields ++ (if isOpen then ["    .."] else []) ++ ["\x7d"]

def linesItems : List Layout → List String
  | [] => []
  | item :: rest => entry "" (lines item) ++ linesItems rest

def linesFields : List (String × Layout) → List String
  | [] => []
  | (name, value) :: rest => entry (name ++ ": ") (lines value) ++ linesFields rest

end

/-- The description over several lines. -/
def spread (layout : Layout) : String := "\n".intercalate (lines layout)

end Layout

end Abnf.Text
