import BusMachine.Datapath
import BusMachine.Instruction
import BusMachine.Microprogram

/-!
The sequencer: microcode resolved against a wiring and an instruction set, which drives a datapath
through one cycle per tick. `Sequencer.ofMicrocode` checks that for every instruction exactly one
microprogram applies in each flag state, so that a cycle never has to fail.
-/

namespace BusMachine

structure Routine (n : Nat) where
  condition : Condition
  steps : List (List (Action n))
deriving DecidableEq, Repr

/-- The microcode of a machine. -/
structure Sequencer (w : Wiring) where
  tick : Fin w.size
  instruction : Fin w.size
  /-- The routines of each opcode. -/
  routines : SparseTable (List (Routine w.size))

structure CycleReport where
  opcode : Word
  step : Word
  halted : Bool
deriving DecidableEq, Repr

namespace Sequencer

def requireRole (w : Wiring) (role : String) : Except BuildFault (Fin w.size) :=
  match w.slot? role with
  | some slot => .ok slot
  | none => .error (.missingRole role)

def requireLine (w : Wiring) (slot : Fin w.size) (signal : Signal) : Except BuildFault Unit :=
  if w.slots[slot].lines.contains signal then .ok ()
  else .error (.unsupportedSignal w.slots[slot].name signal.name)

def resolveAction (w : Wiring) : NamedAction → Except BuildFault (List (Action w.size))
  | .halt => .ok [.halt]
  | .literal value => .ok [.literal value]
  | .line name signal =>
    match w.place? name with
    | none => .error (.unknownComponent name)
    | some place => do
      let targets := place.targets signal
      targets.forM (requireLine w · signal)
      return targets.map (.line · signal)

def resolveStep (w : Wiring) (step : List NamedAction) :
    Except BuildFault (List (Action w.size)) :=
  return (← step.mapM (resolveAction w)).flatten

def resolveRoutine (w : Wiring) (set : InstructionSet) (routine : NamedRoutine) :
    Except BuildFault (Word × Routine w.size) :=
  match set.named? routine.instruction with
  | none => .error (.unknownInstruction routine.instruction)
  | some i => do
    let steps ← routine.program.mapM (resolveStep w)
    return (i.opcode, { condition := routine.condition, steps })

def faultIn? {n : Nat} (name : String) (own : List (Routine n)) (flags : Flags) :
    Option BuildFault :=
  match own.countP (·.condition.holds flags) with
  | 0 => some (.incompleteMicrocode name flags)
  | 1 => none
  | _ => some (.overlappingMicrocode name flags)

/-- The routines of one instruction out of all. Exactly one must apply in each flag state. -/
def routinesOf {n : Nat} (routines : List (Word × Routine n)) (i : Instruction) :
    Except BuildFault (Word × List (Routine n)) :=
  let own := (routines.filter (·.1 == i.opcode)).map Prod.snd
  if own.isEmpty then .error (.missingMicrocode i.name)
  else
    match Flags.all.findSome? (faultIn? i.name own) with
    | some fault => .error fault
    | none => .ok (i.opcode, own)

def ofMicrocode (w : Wiring) (set : InstructionSet) (microcode : List NamedRoutine) :
    Except BuildFault (Sequencer w) := do
  let tick ← requireRole w "tick"
  let instruction ← requireRole w "instruction"
  requireLine w tick .incr
  let routines ← microcode.mapM (resolveRoutine w set)
  let chosen ← set.toList.mapM (routinesOf routines)
  return { tick, instruction, routines := .ofList chosen }

variable {w : Wiring}

/-- The actions of a step of an opcode. An opcode without microcode has none, and neither has a
step behind the last. -/
def actions (q : Sequencer w) (opcode step : Word) (flags : Flags) : List (Action w.size) :=
  match q.routines.get? opcode with
  | none => []
  | some own => (own.filter (·.condition.holds flags)).flatMap (·.steps.getD step [])

def stepCount? (q : Sequencer w) (opcode : Word) (flags : Flags) : Option Nat := do
  let own ← q.routines.get? opcode
  let routine ← own.find? (·.condition.holds flags)
  return routine.steps.length

variable {c : Circuit} {δ : Type} [Device δ]

/-- Performs the current step and moves the tick counter on. -/
def cycle (q : Sequencer c.wiring) (d : Datapath c δ) : CycleReport × Datapath c δ :=
  let step := d.values[q.tick]
  let opcode := d.values[q.instruction]
  let actions := q.actions opcode step d.flags
  let d := ((d.beginCycle.assertAll actions).assert (.line q.tick .incr)).endCycle
  ({ opcode, step, halted := d.halting }, d)

end Sequencer

end BusMachine
