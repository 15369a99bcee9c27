import BusMachine.Instruction.Standard
import BusMachine.Microprogram.Standard
import BusMachine.Sequencer

/-!
Architectures: everything about a machine that does not change while it runs.
-/

namespace BusMachine

/-- A circuit with an instruction set and the microcode that carries it out. -/
structure Architecture extends Circuit where
  instructions : InstructionSet
  sequencer : Sequencer toCircuit.wiring

namespace Architecture

def checkOpcodes (wordSize : Nat) (set : InstructionSet) : Except BuildFault Unit :=
  match set.toList.find? fun i => decide (wordSize ≤ i.opcode) with
  | some i => .error (.opcodeOutOfRange i.name i.opcode wordSize)
  | none => .ok ()

/-- Checks and resolves the description of a machine, part by part. -/
def build (params : Parameters) (components : List Component) (instructions : List Instruction)
    (microcode : List NamedRoutine) : Except BuildFault Architecture := do
  let circuit ← Circuit.ofComponents params components
  let set ← InstructionSet.ofList instructions
  checkOpcodes params.wordSize set
  let sequencer ← Sequencer.ofMicrocode circuit.wiring set microcode
  return { toCircuit := circuit, instructions := set, sequencer }

def standard (params : Parameters) : Except BuildFault Architecture :=
  build params standardComponents standardInstructions standardMicrocode

end Architecture

end BusMachine
