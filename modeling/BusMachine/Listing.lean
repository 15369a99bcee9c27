import BusMachine.Annotation
import BusMachine.Instruction
import BusMachine.Text.Numeral

/-!
Listings of memory. Cells are visited from address 0 on: one that holds a known opcode begins an
instruction, the cells after it are its operands, and any other cell is a plain value. With
annotations, every cell from the end of the code on is data.
-/

namespace BusMachine

inductive CellMeaning where
  | opcode (mnemonic : String)
  | operand (kind : OperandKind) (target : Option String)
  | data (name : Option String)
  | value
deriving DecidableEq, Repr

def CellMeaning.remark : CellMeaning → String
  | opcode mnemonic => s!" ; {Text.upper mnemonic}"
  | operand kind none => s!" ;   {kind.text}"
  | operand kind (some target) => s!" ;   {kind.text} -> {target}"
  | data none => " ; data"
  | data (some name) => s!" ; data {name}"
  | value => ""

structure ListingRow where
  address : Nat
  value : Word
  label : Option String
  meaning : CellMeaning
deriving DecidableEq, Repr

def ListingRow.text (row : ListingRow) : String :=
  let cell := Text.hex4 row.address ++ ": " ++ Text.padStart 5 ' ' (toString row.value)
  let label := match row.label with
    | some label => s!"  {label}"
    | none => ""
  cell ++ label ++ row.meaning.remark

structure Listing where
  instructions : InstructionSet
  annotations : Option Annotations := none

namespace Listing

/-- The label of a cell. Only words are addresses of labels. -/
def label? (l : Listing) (address : Nat) : Option String :=
  if address ≤ maxWord then l.annotations.bind (·.label? address) else none

def dataName? (l : Listing) (address : Nat) : Option String :=
  if address ≤ maxWord then
    (l.annotations.bind (·.dataAround? address)).map fun (_, extent) => extent.name
  else none

def target? (l : Listing) (kind : OperandKind) (value : Word) : Option String :=
  match kind with
  | .immediate => none
  | .address => l.annotations.bind (·.label? value)

/-- What a cell is taken for, and the operands expected after it, given those expected now. -/
def meaning (l : Listing) (codeEnd address : Nat) (value : Word) (expected : List OperandKind) :
    CellMeaning × List OperandKind :=
  if codeEnd ≤ address then (.data (l.dataName? address), [])
  else match expected with
    | kind :: rest => (.operand kind (l.target? kind value), rest)
    | [] =>
      match l.instructions.decode? value with
      | some i => (.opcode i.name, i.operands)
      | none => (.value, [])

/-- Puts the rows of the cells from `address` on behind those in `done`, which is in reverse. -/
def collectRows (l : Listing) (codeEnd : Nat) (done : List ListingRow) (address : Nat)
    (expected : List OperandKind) : List Word → List ListingRow
  | [] => done.reverse
  | value :: rest =>
    let (meaning, expected) := l.meaning codeEnd address value expected
    let row := { address, value, label := l.label? address, meaning }
    collectRows l codeEnd (row :: done) (address + 1) expected rest

def rows (l : Listing) (memory : List Word) : List ListingRow :=
  let codeEnd := match l.annotations with
    | some a => a.codeEnd
    | none => memory.length
  l.collectRows codeEnd [] 0 [] memory

theorem collectRows_eq_append (l : Listing) (codeEnd : Nat) (done : List ListingRow)
    (address : Nat) (expected : List OperandKind) (memory : List Word) :
    l.collectRows codeEnd done address expected memory =
      done.reverse ++ l.collectRows codeEnd [] address expected memory := by
  induction memory generalizing done address expected with
  | nil => simp [collectRows]
  | cons value rest ih =>
    simp only [collectRows]
    rw [ih, ih [_]]
    simp

end Listing

end BusMachine
