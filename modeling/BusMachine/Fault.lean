import BusMachine.Word

/-!
What can be wrong with the description of a machine, and what can be wrong with a request to a
running one. A fault names its cause; `message` is its wording.
-/

namespace BusMachine

inductive BuildFault where
  | duplicateOpcode (opcode : Word) (first second : String)
  | duplicateMnemonic (name : String)
  | opcodeOutOfRange (name : String) (opcode : Word) (wordSize : Nat)
  | duplicateComponent (name : String)
  | unknownComponent (name : String)
  | unsupportedSignal (component signal : String)
  | unknownInstruction (name : String)
  | missingMicrocode (name : String)
  | overlappingMicrocode (name : String) (flags : Flags)
  | incompleteMicrocode (name : String) (flags : Flags)
  | missingRole (role : String)
  | invalidWordSize (wordSize : Nat)
  | invalidMemorySize (memorySize wordSize : Nat)
  | invalidClockPeriod
deriving DecidableEq, Repr

namespace BuildFault

def message : BuildFault → String
  | duplicateOpcode opcode first second =>
    s!"instruction '{second}' reuses opcode {opcode} already assigned to '{first}'"
  | duplicateMnemonic name => s!"mnemonic '{name}' is defined more than once"
  | opcodeOutOfRange name opcode wordSize =>
    s!"opcode {opcode} of '{name}' does not fit in a {wordSize}-value word"
  | duplicateComponent name => s!"component '{name}' is declared more than once"
  | unknownComponent name => s!"unknown component '{name}'"
  | unsupportedSignal component signal => s!"component '{component}' has no '{signal}' line"
  | unknownInstruction name => s!"microcode refers to unknown instruction '{name}'"
  | missingMicrocode name => s!"instruction '{name}' has no microcode"
  | overlappingMicrocode name flags =>
    s!"microcode for '{name}' is ambiguous when carry={flags.carry}, zero={flags.zero}"
  | incompleteMicrocode name flags =>
    s!"microcode for '{name}' does not cover carry={flags.carry}, zero={flags.zero}"
  | missingRole role => s!"schema is missing the '{role}' component required by the controller"
  | invalidWordSize wordSize =>
    s!"word size {wordSize} is outside the supported range 2..={addressSpace}"
  | invalidMemorySize memorySize wordSize =>
    s!"memory size {memorySize} must be within {wordSize}..={addressSpace}"
  | invalidClockPeriod => "clock period must be positive and finite"

end BuildFault

inductive RequestFault where
  | unknownComponent (name : String)
  | unknownSignal (component signal : String)
  | addressOutOfRange (address size : Nat)
  | imageTooLarge (length size : Nat)
deriving DecidableEq, Repr

namespace RequestFault

def message : RequestFault → String
  | unknownComponent name => s!"unknown component '{name}'"
  | unknownSignal component signal => s!"component '{component}' does not accept signal '{signal}'"
  | addressOutOfRange address size => s!"address {address} is outside memory of {size} words"
  | imageTooLarge length size => s!"image of {length} words does not fit in memory of {size} words"

end RequestFault

end BusMachine
