import BusMachine.Assembly.Token
import BusMachine.Instruction
import BusMachine.Text.Character
import Std.Data.HashSet

/-!
Programs before addresses are known: code words in order, some of which are references, and data
blocks that follow the code.

Every token adds at most one code word. A word is tried as a label declaration `::name`, a reference
`:name`, a character, a buffer `$name[size]`, a mnemonic and a leading number, in this order. A
word that is none of these is dropped, or refused when parsing is strict.
-/

namespace BusMachine.Assembly

inductive Symbol where
  | user (name : String)
  | string (index : Nat)
  | buffer (name : String)
deriving DecidableEq, Hashable, Repr

def Symbol.text : Symbol → String
  | user name => s!":{name}"
  | string index => s!"s{index}"
  | buffer name => s!"${name}"

inductive Content where
  | word (value : Word)
  | reference (symbol : Symbol)
deriving DecidableEq, Repr

/-- One word of the code, with the label that was declared for it and the position of its token. -/
structure CodeWord where
  content : Content
  label : Option Symbol := none
  position : Position
deriving DecidableEq, Repr

structure DataBlock where
  symbol : Symbol
  words : List Word
  position : Position
deriving DecidableEq, Repr

structure Program where
  code : List CodeWord := []
  data : List DataBlock := []
deriving DecidableEq, Repr

structure Dialect where
  instructions : InstructionSet
  wordSize : Nat
  strict : Bool := false

structure Draft where
  code : Array CodeWord := #[]
  data : Array DataBlock := #[]
  /-- The label that the next code word gets. -/
  pending : Option Symbol := none
  buffers : Std.HashSet String := {}
  strings : Nat := 0

inductive Meaning where
  | label (name : String)
  | reference (name : String)
  | value (word : Word)
  | buffer (name : String) (size : Nat)
  | unknown
deriving DecidableEq, Repr

namespace Meaning

/-- The number of cells that the text after a bracket asks for, at most `wordSize`. -/
def bufferSize (wordSize : Nat) (cs : List Char) : Nat :=
  Text.digitsUpTo wordSize 10 (cs.takeWhile Text.isDigit)

def ofBuffer (wordSize : Nat) (cs : List Char) : Meaning :=
  let name := String.ofList (cs.takeWhile (· != '['))
  match cs.dropWhile (· != '[') with
  | _ :: size => .buffer name (bufferSize wordSize size)
  | [] => .buffer name 1

/-- The meaning of a word that is none of the forms marked by their first character. -/
def ofPlain (d : Dialect) (word : String) : Meaning :=
  match d.instructions.named? word with
  | some i => .value i.opcode
  | none =>
    match Text.leadingInteger? word.toList with
    | some n => .value (Word.nearest d.wordSize n)
    | none => .unknown

def ofWord (d : Dialect) (word : String) : Meaning :=
  match word.toList with
  | ':' :: ':' :: name => .label (String.ofList name)
  | ':' :: name => .reference (String.ofList name)
  | '$' :: declaration => ofBuffer d.wordSize declaration
  | cs =>
    match Text.quotedChar? cs with
    | some c => .value (Word.ofChar d.wordSize c)
    | none => ofPlain d word

end Meaning

namespace Draft

/-- Adds a code word, which takes the pending label. -/
def emit (p : Draft) (content : Content) (position : Position) : Draft :=
  { p with code := p.code.push { content, label := p.pending, position }, pending := none }

/-- Declares a buffer unless one of that name was declared before. -/
def declareBuffer (p : Draft) (name : String) (size : Nat) (position : Position) : Draft :=
  if p.buffers.contains name then p
  else
    let block := { symbol := .buffer name, words := List.replicate size 0, position }
    { p with buffers := p.buffers.insert name, data := p.data.push block }

/-- Adds a string, which is stored with a 0 behind it if it was terminated. -/
def addString (wordSize : Nat) (p : Draft) (codes : List Nat) (terminated : Bool)
    (position : Position) : Draft :=
  let symbol := Symbol.string p.strings
  let characters := codes.map fun code : Nat => Word.nearest wordSize code
  let words := if terminated then characters ++ [0] else characters
  { p with strings := p.strings + 1, data := p.data.push { symbol, words, position } }.emit
    (.reference symbol) position

def addWord (d : Dialect) (p : Draft) (word : String) (position : Position) :
    Except Fault Draft :=
  match Meaning.ofWord d word with
  | .label name => .ok { p with pending := some (.user name) }
  | .reference name => .ok (p.emit (.reference (.user name)) position)
  | .value value => .ok (p.emit (.word value) position)
  | .buffer name size =>
    .ok ((p.declareBuffer name size position).emit (.reference (.buffer name)) position)
  | .unknown =>
    if d.strict then .error { cause := .unknownToken word, position := some position } else .ok p

def addToken (d : Dialect) (p : Draft) (token : Token) : Except Fault Draft :=
  match token.lexeme with
  | .word text => p.addWord d text token.position
  | .string codes terminated => .ok (p.addString d.wordSize codes terminated token.position)

def finish (p : Draft) : Program := { code := p.code.toList, data := p.data.toList }

end Draft

def Program.parse (d : Dialect) (tokens : List Token) : Except Fault Program :=
  return (← tokens.foldlM (Draft.addToken d) {}).finish

end BusMachine.Assembly
