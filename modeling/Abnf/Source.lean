/-!
# Abnf.Source — where symbols come from

A source holds what was delivered but not yet pulled, and what successive reads will answer.  It is
pulled one symbol at a time, and the next read is looked at only when all that was delivered has been
pulled.  An end of input is answered once and not remembered: the next pull goes on with the next
read.
-/

namespace Abnf

/-- What one read answers. -/
inductive Read (α : Type) where
  /-- These symbols; none of them means the end of the input. -/
  | data (symbols : List α)
  /-- A failure, with its text. -/
  | failed (error : String)
  /-- An interruption; the read is tried again. -/
  | interrupted
  deriving DecidableEq, Repr

/-- Symbols delivered but not pulled, and the reads to come; after the last of them, the input is at
its end for ever. -/
structure Source (α : Type) where
  delivered : List α
  reads : List (Read α)
  deriving DecidableEq, Repr

/-- What pulling one symbol comes to, and the source after it. -/
inductive Pulled (α : Type) where
  /-- A symbol. -/
  | symbol (a : α) (rest : Source α)
  /-- The end of the input, for now. -/
  | endOfInput (rest : Source α)
  /-- A failed read, with its text. -/
  | failed (error : String) (rest : Source α)
  deriving DecidableEq, Repr

namespace Pulled

variable {α : Type}

/-- The symbol that was pulled, if there was one. -/
def symbol? : Pulled α → Option α
  | .symbol a _ => some a
  | .endOfInput _ | .failed _ _ => none

/-- The source after the pull. -/
def rest : Pulled α → Source α
  | .symbol _ rest | .endOfInput rest | .failed _ rest => rest

end Pulled

namespace Source

variable {α : Type}

/-- A source that delivers the given symbols and ends. -/
def ofList (symbols : List α) : Source α := ⟨symbols, []⟩

/-- A source over the characters of a text. -/
def ofText (text : String) : Source Char := ofList text.toList

/-- A source that makes the given reads. -/
def ofReads (reads : List (Read α)) : Source α := ⟨[], reads⟩

/-- A source that answers each item in turn, an absent one being an end of input. -/
def ofItems (items : List (Option α)) : Source α := ofReads (items.map fun item => .data item.toList)

/-- The symbols of a read. -/
def symbolsOf : Read α → List α
  | .data symbols => symbols
  | .failed _ | .interrupted => []

/-- Every symbol still to be pulled, in order. -/
def contents (source : Source α) : List α := source.delivered ++ source.reads.flatMap symbolsOf

/-- Pulls one symbol from the reads to come. -/
def pullReads : List (Read α) → Pulled α
  | [] => .endOfInput ⟨[], []⟩
  | .data [] :: rest => .endOfInput ⟨[], rest⟩
  | .data (symbol :: more) :: rest => .symbol symbol ⟨more, rest⟩
  | .failed error :: rest => .failed error ⟨[], rest⟩
  | .interrupted :: rest => pullReads rest

/-- Pulls one symbol. -/
def pull (source : Source α) : Pulled α :=
  match source.delivered with
  | symbol :: more => .symbol symbol ⟨more, source.reads⟩
  | [] => pullReads source.reads

@[simp] theorem contents_ofList (symbols : List α) : (ofList symbols).contents = symbols := by
  simp [ofList, contents]

theorem contents_pullReads (reads : List (Read α)) :
    (pullReads reads).symbol?.toList ++ (pullReads reads).rest.contents =
      reads.flatMap symbolsOf := by
  fun_induction pullReads reads <;>
    simp_all [Pulled.symbol?, Pulled.rest, contents, symbolsOf]

/-- Pulling takes the first of the symbols to come, or none of them. -/
theorem contents_pull (source : Source α) :
    source.pull.symbol?.toList ++ source.pull.rest.contents = source.contents := by
  obtain ⟨delivered, reads⟩ := source
  cases delivered with
  | nil => exact contents_pullReads reads
  | cons symbol more => rfl

end Source

end Abnf
