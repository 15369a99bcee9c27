import BusMachine.Fault
import BusMachine.SparseTable
import BusMachine.Text.Case

/-!
Instructions and instruction sets. An instruction set is a table by opcode in which no two
mnemonics are equal up to case.
-/

namespace BusMachine

inductive OperandKind where
  | immediate
  | address
deriving DecidableEq, Repr

def OperandKind.text : OperandKind → String
  | immediate => "#value"
  | address => "$address"

structure Instruction where
  name : String
  opcode : Word
  operands : List OperandKind := []
  summary : String := ""
deriving DecidableEq, Repr

namespace Instruction

def length (i : Instruction) : Nat := 1 + i.operands.length

end Instruction

/-- Instructions by opcode, with their mnemonics in lower case. -/
structure InstructionSet where
  table : SparseTable Instruction

namespace InstructionSet

def empty : InstructionSet := ⟨.empty⟩

def decode? (set : InstructionSet) (opcode : Word) : Option Instruction := set.table.get? opcode

/-- The instruction with a mnemonic, written in any case. -/
def named? (set : InstructionSet) (name : String) : Option Instruction :=
  let key := Text.lower name
  (set.table.entries.find? fun entry => entry.2.name == key).map Prod.snd

def toList (set : InstructionSet) : List Instruction := set.table.values

theorem named?_mem {set : InstructionSet} {name : String} {i : Instruction}
    (h : set.named? name = some i) : i ∈ set.toList := by
  simp only [named?, Option.map_eq_some_iff] at h
  obtain ⟨entry, hentry, rfl⟩ := h
  exact List.mem_map.mpr ⟨entry, List.mem_of_find?_eq_some hentry, rfl⟩

def size (set : InstructionSet) : Nat := set.table.size

/-- Adds one instruction, whose opcode and mnemonic must be new. -/
def add (set : InstructionSet) (i : Instruction) : Except BuildFault InstructionSet :=
  match set.decode? i.opcode with
  | some existing => .error (.duplicateOpcode i.opcode existing.name i.name)
  | none =>
    match set.named? i.name with
    | some existing => .error (.duplicateMnemonic existing.name)
    | none => .ok ⟨set.table.insert i.opcode { i with name := Text.lower i.name }⟩

def ofList (instructions : List Instruction) : Except BuildFault InstructionSet :=
  instructions.foldlM add empty

end InstructionSet

end BusMachine
