import BusMachine.Microprogram

/-!
Microcode of the standard instruction set on the standard components.
-/

namespace BusMachine

namespace Microcode

open Microprogram

def move (source target : String) : List NamedAction := [.line source .drive, .line target .latch]

def store (register : String) : List NamedAction := [.line "memory" .latch, .line register .drive]

def transfer (instruction source target : String) : NamedRoutine :=
  { instruction, program := move source target :: fetchNext }

def loadOperand (instruction register : String) : NamedRoutine :=
  { instruction, program := operand ++ [move "memory" register] ++ fetchNext }

def jump : Microprogram := operand ++ [move "memory" "pc"] ++ dispatch

/-- Continues at the address in the operand under one condition and behind it under the other. -/
def branch (instruction : String) (taken skipped : Condition) : List NamedRoutine :=
  [{ instruction, condition := taken, program := jump },
    { instruction, condition := skipped, program := operand ++ fetchNext }]

/-- Counts the stack pointer down. The old one is left in `a` and the 1 in `b`. -/
def pushFrame : Microprogram :=
  [move "stack_ptr" "a", [.literal 1, .line "b" .latch], move "sub" "stack_ptr"]

/-- Performs `access` on the cell that lies the operand below the stack pointer. -/
def stackOffset (instruction : String) (access : List NamedAction) : NamedRoutine :=
  { instruction
    program := operand ++
      [move "memory" "b", move "stack_ptr" "a", move "sub" "address", access] ++ fetchNext }

end Microcode

open Microcode Microprogram in
/-- The microprograms of the standard machine. The return point that `call` pushes is the address
of its own opcode, so `ret` moves on by two words. -/
def standardMicrocode : List NamedRoutine :=
  [{ instruction := "nop", program := fetchNext },
    { instruction := "jmp", program := jump },
    { instruction := "hlt", program := [.halt] :: fetchNext },
    { instruction := "cout", program := operand ++ [move "memory" "io"] ++ fetchNext },
    transfer "aout" "a" "io",
    transfer "inp" "io" "a",
    loadOperand "iot" "io_target",
    transfer "atb" "a" "b",
    transfer "bta" "b" "a",
    transfer "atx" "a" "x",
    transfer "aty" "a" "y",
    transfer "xta" "x" "a",
    transfer "yta" "y" "a",
    transfer "btx" "b" "x",
    transfer "bty" "b" "y",
    transfer "xtb" "x" "b",
    transfer "ytb" "y" "b",
    transfer "xty" "x" "y",
    transfer "ytx" "y" "x",
    loadOperand "loa" "a",
    loadOperand "lob" "b",
    loadOperand "lox" "x",
    loadOperand "loy" "y",
    -- an empty bus is taken over as 0
    { instruction := "rsb", program := [.line "b" .latch] :: fetchNext },
    transfer "sum" "sum" "a",
    transfer "sub" "sub" "a",
    { instruction := "add",
      program := operand ++ [move "memory" "b", move "sum" "a"] ++ fetchNext },
    { instruction := "rem",
      program := operand ++ [move "memory" "b", move "sub" "a"] ++ fetchNext },
    { instruction := "jpa", program := move "a" "pc" :: dispatch },
    { instruction := "movma",
      program := operand ++ [move "memory" "address", move "memory" "a"] ++ fetchNext },
    { instruction := "movam",
      program := operand ++ [move "memory" "address", store "a"] ++ fetchNext },
    { instruction := "movpa", program := [move "b" "address", move "memory" "a"] ++ fetchNext },
    { instruction := "movap", program := [move "b" "address", store "a"] ++ fetchNext },
    { instruction := "movcm",
      program := operand ++ [move "memory" "a"] ++ operand ++
        [move "memory" "address", store "a"] ++ fetchNext },
    { instruction := "movmm",
      program := operand ++ [move "memory" "address", move "memory" "a"] ++ operand ++
        [move "memory" "address", store "a"] ++ fetchNext },
    stackOffset "movsx" (move "memory" "x"),
    stackOffset "movxs" (store "x"),
    { instruction := "pushc",
      program := operand ++ pushFrame ++
        [move "memory" "a", move "stack_ptr" "address", move "a" "memory"] ++ fetchNext },
    { instruction := "pushx",
      program := pushFrame ++ [move "stack_ptr" "address", move "x" "memory"] ++ fetchNext },
    { instruction := "pop",
      program := [move "stack_ptr" "address", [.line "x" .latch, .line "memory" .drive],
        move "stack_ptr" "a", [.literal 1, .line "b" .latch], move "sum" "stack_ptr"] ++
        fetchNext },
    { instruction := "call",
      program := pushFrame ++ [move "stack_ptr" "address", move "pc" "memory"] ++ jump },
    { instruction := "ret",
      program := [move "stack_ptr" "address", [.line "pc" .latch, .line "memory" .drive],
        move "stack_ptr" "a" ++ [.line "pc" .incr],
        [.literal 1, .line "b" .latch, .line "pc" .incr], move "sum" "stack_ptr"] ++
        dispatch }] ++
    branch "jpz" .zero .notZero ++
    branch "jnz" .notZero .zero ++
    branch "jpc" .carry .notCarry ++
    branch "jnc" .notCarry .carry

end BusMachine
