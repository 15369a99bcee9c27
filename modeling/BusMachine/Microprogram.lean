import BusMachine.Signal
import BusMachine.Word

/-!
Microprograms: what an instruction does in each of its steps, in terms of component names. A
microprogram applies in the flag states that its condition admits.
-/

namespace BusMachine

inductive Condition where
  | always
  | zero
  | notZero
  | carry
  | notCarry
deriving DecidableEq, Repr

def Condition.holds : Condition → Flags → Bool
  | always, _ => true
  | zero, f => f.zero
  | notZero, f => !f.zero
  | carry, f => f.carry
  | notCarry, f => !f.carry

inductive NamedAction where
  | line (component : String) (signal : Signal)
  | halt
  | literal (value : Word)
deriving DecidableEq, Repr

/-- The steps of an instruction; step `t` is performed when the tick counter is `t`. -/
abbrev Microprogram := List (List NamedAction)

namespace Microprogram

def operand : Microprogram :=
  [[.line "pc" .incr], [.line "pc" .drive, .line "address" .latch]]

/-- Loads the instruction at `pc` and starts over with its first step. -/
def dispatch : Microprogram :=
  [[.line "pc" .drive, .line "address" .latch],
    [.line "memory" .drive, .line "instruction" .latch, .line "tick" .reset]]

def fetchNext : Microprogram := [.line "pc" .incr] :: dispatch

end Microprogram

structure NamedRoutine where
  instruction : String
  condition : Condition := .always
  program : Microprogram
deriving DecidableEq, Repr

end BusMachine
