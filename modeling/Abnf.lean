import Abnf.Rule.Core
import Abnf.Rule.Fuel
import Abnf.Rule.Routine
import Abnf.Tree.Fuel
import Abnf.Tree.Walk
import Abnf.Proofs.Contract
import Abnf.Proofs.UnrulyParts
import Abnf.Proofs.Strict
import Abnf.Proofs.Abandon
import Abnf.Proofs.ForeignSpan
import Abnf.Proofs.Peg
import Abnf.Proofs.Agreement
import Abnf.Proofs.Adequacy
import Abnf.Proofs.Refactoring
import Abnf.Proofs.Unrolling
import Abnf.Proofs.History
import Abnf.Proofs.FailedRead
import Abnf.Proofs.Halting
import Abnf.Proofs.Definition
import Abnf.Proofs.Language
import Abnf.Proofs.Unread
import Abnf.Proofs.Chunking
import Abnf.Proofs.Nesting
import Abnf.Proofs.LinearSpace
import Abnf.Proofs.Recoding
import Abnf.Proofs.Caseless
import Abnf.Proofs.Bytes
import Abnf.Proofs.Tree.Derivation
import Abnf.Proofs.Tree.Unambiguous
import Abnf.Proofs.Tree.Halting
import Abnf.Proofs.Tree.Containment
import Abnf.Proofs.Tree.Greedy
import Abnf.Proofs.Tree.Regrouping
import Abnf.Proofs.Tree.Parentheses
import Abnf.Proofs.Tree.Choices
import Abnf.Proofs.Tree.PreOrder
