import BusMachine.Annotation
import BusMachine.Assembly.Program
import Std.Data.HashMap

/-!
The layout of a program in memory: word 0 is 0, the code follows from address 1 on, and the data
follows the code. A symbol that is declared twice keeps its first address.
-/

namespace BusMachine.Assembly

structure PlacedBlock where
  symbol : Symbol
  start : Nat
  size : Nat
deriving DecidableEq, Repr

namespace Program

def codeEnd (p : Program) : Nat := p.code.length + 1

def imageLength (p : Program) : Nat :=
  p.data.foldl (fun length block => length + block.words.length) p.codeEnd

def placeBlocks (start : Nat) : List DataBlock → List PlacedBlock
  | [] => []
  | block :: rest =>
    { symbol := block.symbol, start, size := block.words.length } ::
      placeBlocks (start + block.words.length) rest

/-- The labels of code words, the first of which is at `address`. -/
def labelsFrom (address : Nat) : List CodeWord → List (Symbol × Nat)
  | [] => []
  | word :: rest =>
    match word.label with
    | some label => (label, address) :: labelsFrom (address + 1) rest
    | none => labelsFrom (address + 1) rest

end Program

structure Layout where
  declarations : List (Symbol × Nat)
  blocks : List PlacedBlock
  /-- The first declaration of each symbol. -/
  index : Std.HashMap Symbol Nat
  codeEnd : Nat
  imageLength : Nat

namespace Layout

/-- The first declaration of each symbol. -/
def indexOf (declarations : List (Symbol × Nat)) : Std.HashMap Symbol Nat :=
  declarations.foldl (fun index (symbol, address) => index.insertIfNew symbol address) {}

def ofProgram (p : Program) : Layout :=
  let blocks := Program.placeBlocks p.codeEnd p.data
  let declarations :=
    Program.labelsFrom 1 p.code ++ blocks.map fun block => (block.symbol, block.start)
  { declarations, blocks, index := indexOf declarations, codeEnd := p.codeEnd,
    imageLength := p.imageLength }

def address? (l : Layout) (symbol : Symbol) : Option Nat := l.index[symbol]?

def resolveWord (l : Layout) (wordSize : Nat) (word : CodeWord) : Except Fault Word :=
  match word.content with
  | .word value => .ok value
  | .reference symbol =>
    let refuse (cause : Cause) := .error { cause, position := some word.position }
    match l.address? symbol with
    | none => refuse (.undefinedLabel symbol.text)
    | some address =>
      if address < wordSize ∧ address ≤ maxWord then .ok address
      else refuse (.addressOverflow symbol.text address)

def resolve (l : Layout) (p : Program) (wordSize : Nat) : Except Fault (Array Word) := do
  let code ← p.code.mapM (l.resolveWord wordSize)
  return ((0 :: code) ++ p.data.flatMap DataBlock.words).toArray

/-- Labels and data of the image. What lies behind the last address of any machine is left out. -/
def annotations (l : Layout) : Annotations where
  codeEnd := min l.codeEnd maxWord
  labels := l.declarations.foldl label .empty
  data := l.blocks.foldl extent .empty
where
  label (labels : SparseTable String) : Symbol × Nat → SparseTable String
    | (symbol, _) =>
      match l.address? symbol with
      | some address =>
        if address ≤ maxWord then labels.insertIfNew address symbol.text else labels
      | none => labels
  extent (data : SparseTable DataExtent) (block : PlacedBlock) : SparseTable DataExtent :=
    if block.start ≤ maxWord then
      data.insert block.start { name := block.symbol.text, size := block.size }
    else data

end Layout

end BusMachine.Assembly
