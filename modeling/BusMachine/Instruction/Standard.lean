import BusMachine.Instruction

/-!
The standard instruction set.
-/

namespace BusMachine

open OperandKind in
def standardInstructions : List Instruction :=
  -- flow control
  [{ name := "nop", opcode := 0, summary := "does nothing" },
    { name := "jmp", opcode := 1, operands := [address], summary := "jumps to $target" },
    { name := "hlt", opcode := 2, summary := "stops the clock" },
    -- input and output
    { name := "cout", opcode := 3, operands := [immediate], summary := "outputs #value" },
    { name := "aout", opcode := 4, summary := "outputs A" },
    { name := "inp", opcode := 32, summary := "inputs A" },
    { name := "iot", opcode := 38, operands := [immediate], summary := "selects I/O port #value" },
    -- register moves
    { name := "atb", opcode := 5, summary := "B = A" },
    { name := "bta", opcode := 6, summary := "A = B" },
    { name := "atx", opcode := 7, summary := "X = A" },
    { name := "aty", opcode := 8, summary := "Y = A" },
    { name := "xta", opcode := 9, summary := "A = X" },
    { name := "yta", opcode := 10, summary := "A = Y" },
    { name := "btx", opcode := 11, summary := "X = B" },
    { name := "bty", opcode := 12, summary := "Y = B" },
    { name := "xtb", opcode := 13, summary := "B = X" },
    { name := "ytb", opcode := 14, summary := "B = Y" },
    { name := "xty", opcode := 15, summary := "Y = X" },
    { name := "ytx", opcode := 16, summary := "X = Y" },
    { name := "loa", opcode := 17, operands := [immediate], summary := "A = #value" },
    { name := "lob", opcode := 18, operands := [immediate], summary := "B = #value" },
    { name := "lox", opcode := 19, operands := [immediate], summary := "X = #value" },
    { name := "loy", opcode := 20, operands := [immediate], summary := "Y = #value" },
    { name := "rsb", opcode := 23, summary := "B = 0" },
    -- arithmetic
    { name := "sum", opcode := 21, summary := "A = A + B" },
    { name := "sub", opcode := 36, summary := "A = A - B" },
    { name := "add", opcode := 22, operands := [immediate], summary := "A += #value" },
    { name := "rem", opcode := 37, operands := [immediate], summary := "A -= #value" },
    -- conditional flow control
    { name := "jpz", opcode := 24, operands := [address], summary := "jumps to $target if zero" },
    { name := "jnz", opcode := 25, operands := [address],
      summary := "jumps to $target if not zero" },
    { name := "jpc", opcode := 26, operands := [address], summary := "jumps to $target if carry" },
    { name := "jnc", opcode := 27, operands := [address],
      summary := "jumps to $target if not carry" },
    { name := "jpa", opcode := 33, summary := "jumps to A" },
    -- memory
    { name := "movma", opcode := 28, operands := [address], summary := "A = *$address" },
    { name := "movam", opcode := 29, operands := [address], summary := "*$address = A" },
    { name := "movpa", opcode := 30, summary := "A = *B" },
    { name := "movap", opcode := 31, summary := "*B = A" },
    { name := "movcm", opcode := 34, operands := [immediate, address],
      summary := "*$address = #value" },
    { name := "movmm", opcode := 35, operands := [address, address],
      summary := "*$target = *$source" },
    -- stack
    { name := "movsx", opcode := 39, operands := [address],
      summary := "X = *(stack_ptr - $offset)" },
    { name := "movxs", opcode := 40, operands := [address],
      summary := "*(stack_ptr - $offset) = X" },
    { name := "pushc", opcode := 41, operands := [immediate],
      summary := "*(--stack_ptr) = #value" },
    { name := "pushx", opcode := 42, summary := "*(--stack_ptr) = X" },
    { name := "pop", opcode := 43, summary := "X = *(stack_ptr++)" },
    -- subroutines
    { name := "call", opcode := 44, operands := [address],
      summary := "pushes the return point, jumps to $func" },
    { name := "ret", opcode := 45, summary := "returns past the last call" }]

end BusMachine
