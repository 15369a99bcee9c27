import BusMachine.Literate
import BusMachine.Text.Character
import BusMachine.Text.Numeral

/-!
Assertions of test blocks, one a line: a component or a memory cell, a comparison and a value. A
semicolon starts a comment.
-/

namespace BusMachine.InlineTest

inductive WrittenValue where
  | literal (n : Int)
  | label (name : String)
deriving DecidableEq, Repr

def WrittenValue.text : WrittenValue → String
  | literal n => toString n
  | label name => name

inductive Subject where
  | component (name : String)
  | memory (address : WrittenValue)
deriving DecidableEq, Repr

def Subject.text : Subject → String
  | component name => name
  | memory address => s!"[{address.text}]"

inductive Comparison where
  | equal
  | notEqual
deriving DecidableEq, Repr

namespace Comparison

def text : Comparison → String
  | equal => "=="
  | notEqual => "!="

def holds : Comparison → Int → Int → Bool
  | equal, a, b => a == b
  | notEqual, a, b => a != b

end Comparison

structure Assertion where
  subject : Subject
  comparison : Comparison
  expected : WrittenValue
deriving DecidableEq, Repr

def Assertion.text (a : Assertion) : String :=
  s!"{a.subject.text} {a.comparison.text} {a.expected.text}"

inductive AssertionCause where
  | noComparison
  | noSubject
  | noValue
  | unclosedAddress
  | invalidName (text : String)
  | invalidValue (text : String)
deriving DecidableEq, Repr

def AssertionCause.message : AssertionCause → String
  | noComparison => "expected '==' or '!='"
  | noSubject => "expected a component or [address]"
  | noValue => "expected a value"
  | unclosedAddress => "expected ']' after address"
  | invalidName text => s!"invalid component name '{text}'"
  | invalidValue text => s!"invalid value '{text}'"

structure AssertionFault where
  /-- The number of the line in its block, from 1. -/
  line : Nat
  text : String
  cause : AssertionCause
deriving DecidableEq, Repr

def AssertionFault.message (f : AssertionFault) : String :=
  s!"line {f.line}: {f.cause.message} (in '{f.text}')"

structure Block where
  assertions : List Assertion
  startLine : Nat
  endLine : Nat
deriving DecidableEq, Repr

/-- A colon or a dollar sign and a name, or `s` and a number. -/
def isLabel : List Char → Bool
  | ':' :: _ => true
  | '$' :: _ => true
  | 's' :: index => !index.isEmpty && index.all Text.isDigit
  | _ => false

def isName (cs : List Char) : Bool := cs.all fun c => c.isAlphanum || c == '_'

def WrittenValue.parse (cs : List Char) : Except AssertionCause WrittenValue :=
  match Text.integer? cs with
  | some n => .ok (.literal n)
  | none =>
    match Text.quotedChar? cs with
    | some c => .ok (.literal c.toNat)
    | none =>
      if isLabel cs then .ok (.label (String.ofList cs))
      else .error (.invalidValue (String.ofList cs))

/-- Cuts a text at the first place where `a` is followed by `b`. -/
def cutAt (a b : Char) : List Char → Option (List Char × List Char)
  | c :: d :: rest =>
    if c = a ∧ d = b then some ([], rest)
    else (cutAt a b (d :: rest)).map fun (left, right) => (c :: left, right)
  | _ => none

/-- The comparison of a line with the texts around it. The first equality counts, and only where
there is none the first inequality. -/
def splitComparison (cs : List Char) :
    Except AssertionCause (List Char × Comparison × List Char) :=
  let cut := match cutAt '=' '=' cs with
    | some (left, right) => some (left, .equal, right)
    | none => (cutAt '!' '=' cs).map fun (left, right) => (left, Comparison.notEqual, right)
  match cut with
  | none => .error .noComparison
  | some (left, comparison, right) =>
    let left := Text.trim left
    let right := Text.trim right
    if left.isEmpty then .error .noSubject
    else if right.isEmpty then .error .noValue
    else .ok (left, comparison, right)

def Subject.parse (cs : List Char) : Except AssertionCause Subject :=
  match cs with
  | '[' :: inner =>
    if inner.getLast? = some ']' then
      return .memory (← WrittenValue.parse (Text.trim inner.dropLast))
    else throw .unclosedAddress
  | _ => if isName cs then return .component (String.ofList cs)
    else throw (.invalidName (String.ofList cs))

def Assertion.parse (cs : List Char) : Except AssertionCause Assertion := do
  let (left, comparison, right) ← splitComparison cs
  let subject ← Subject.parse left
  let expected ← WrittenValue.parse right
  return { subject, comparison, expected }

def stripComment (line : List Char) : List Char := Text.trim (line.takeWhile (· != ';'))

def parseLines (line : Nat) : List (List Char) → Except AssertionFault (List Assertion)
  | [] => .ok []
  | cs :: rest =>
    let text := stripComment cs
    if text.isEmpty then parseLines (line + 1) rest
    else
      match Assertion.parse text with
      | .error cause => .error { line, text := String.ofList text, cause }
      | .ok a => return a :: (← parseLines (line + 1) rest)

def Block.parse (block : TestSection) : Except AssertionFault Block := do
  let assertions ← parseLines 1 (Text.lines block.content.toList)
  return { assertions, startLine := block.startLine, endLine := block.endLine }

end BusMachine.InlineTest
