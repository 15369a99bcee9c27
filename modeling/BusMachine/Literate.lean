import BusMachine.Path
import BusMachine.Text.Case
import BusMachine.Text.Line
import BusMachine.Text.Whitespace

/-!
Literate files: documents in which fenced blocks tagged `bus8` hold program text and fenced blocks
tagged `bus8test` hold assertions. A fence is a run of at least three backticks at the front of a
line; a block is closed by a line of nothing but backticks, at least as many as opened it.

Lines outside of program blocks become empty lines of the program, so that a position in the program
is a position in the document.
-/

namespace BusMachine

/-- The content of a test block, with the lines of the document that its fences are on. -/
structure TestSection where
  content : String
  startLine : Nat
  endLine : Nat
deriving DecidableEq, Repr

structure Source where
  program : String
  tests : List TestSection := []
  path : String
deriving DecidableEq, Repr

namespace Literate

inductive BlockKind where
  | program
  | test
  | other
deriving DecidableEq, Repr

structure OpenBlock where
  kind : BlockKind
  fence : Nat
  startLine : Nat
  lines : List (List Char) := []
deriving DecidableEq, Repr

def fenceLength? (line : List Char) : Option Nat :=
  let count := ((Text.trimStart line).takeWhile (· == '\x60')).length
  if 3 ≤ count then some count else none

def isBare (line : List Char) : Bool := (Text.trim line).all (· == '\x60')

/-- The kind of block that a fence of `count` backticks opens. -/
def kindOf (line : List Char) (count : Nat) : BlockKind :=
  let tag := String.ofList (Text.firstWord ((Text.trimStart line).drop count))
  if tag == "bus8" then .program else if tag == "bus8test" then .test else .other

structure Reader where
  count : Nat := 0
  block : Option OpenBlock := none
  program : List (List Char) := []
  tests : List TestSection := []
deriving DecidableEq, Repr

def unlines (lines : List (List Char)) : String :=
  String.ofList (lines.flatMap (· ++ ['\n']))

def close (tests : List TestSection) (b : OpenBlock) (endLine : Nat) : List TestSection :=
  match b.kind with
  | .test => { content := unlines b.lines.reverse, startLine := b.startLine, endLine } :: tests
  | _ => tests

def OpenBlock.closedBy (b : OpenBlock) (line : List Char) : Bool :=
  match fenceLength? line with
  | some count => decide (b.fence ≤ count) && isBare line
  | none => false

def Reader.step (r : Reader) (line : List Char) : Reader :=
  let number := r.count + 1
  match r.block with
  | none =>
    let block := (fenceLength? line).map fun count =>
      { kind := kindOf line count, fence := count, startLine := number }
    { r with count := number, block, program := [] :: r.program }
  | some b =>
    if b.closedBy line then
      { count := number, block := none, program := [] :: r.program,
        tests := close r.tests b number }
    else
      let visible := if b.kind = .program then line else []
      { r with count := number, block := some { b with lines := line :: b.lines },
               program := visible :: r.program }

/-- The program and the test blocks of a document. A block that is never closed ends with it. -/
def read (content : String) : String × List TestSection :=
  let r := (Text.lines content.toList).foldl Reader.step {}
  let tests := match r.block with
    | some b => close r.tests b r.count
    | none => r.tests
  (unlines r.program.reverse, tests.reverse)

def isDocument (path : String) : Bool :=
  match Path.extension? path with
  | some ext => Text.sameLetters ext "md"
  | none => false

end Literate

def Source.ofFile (path content : String) : Source :=
  if Literate.isDocument path then
    let (program, tests) := Literate.read content
    { program, tests, path }
  else { program := content, path }

end BusMachine
