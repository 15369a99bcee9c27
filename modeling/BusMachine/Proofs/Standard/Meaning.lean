import BusMachine.Datapath
import BusMachine.Microprogram

/-!
What the standard instructions mean, without reference to the steps that carry them out. The
operands of an instruction are the words behind its opcode, and arithmetic is modulo the word size.
-/

namespace BusMachine.Standard

inductive Register where
  | a
  | b
  | x
  | y
  | stackPtr
  | ioTarget
deriving DecidableEq, Repr

inductive Operator where
  | plus
  | minus
deriving DecidableEq, Repr

/-- The word that is congruent to the exact result, and whether the exact result is no word. -/
def Operator.result (wordSize : Nat) : Operator → Word → Word → Arithmetic
  | .plus, m, n => ⟨(m + n) % wordSize, decide (wordSize ≤ m + n)⟩
  | .minus, m, n => ⟨(m + wordSize - n) % wordSize, decide (m < n)⟩

/-- What the standard machine keeps from one cycle to the next, with `size` cells of memory. -/
structure State (size : Nat) (δ : Type) where
  instruction : Word
  tick : Word
  pc : Word
  address : Word
  a : Word
  b : Word
  x : Word
  y : Word
  stackPtr : Word
  ioTarget : Word
  flags : Flags
  memory : Vector Word size
  ports : Ports δ

namespace State

variable {size : Nat} {δ : Type}

def held {c : Circuit} (d : Datapath c δ) (name : String) : Word :=
  (d.valueOf name).toOption.getD 0

def ofDatapath {c : Circuit} (d : Datapath c δ) : State c.memorySize δ where
  instruction := held d "instruction"
  tick := held d "tick"
  pc := held d "pc"
  address := held d "address"
  a := held d "a"
  b := held d "b"
  x := held d "x"
  y := held d "y"
  stackPtr := held d "stack_ptr"
  ioTarget := held d "io_target"
  flags := d.flags
  memory := d.memory
  ports := d.ports

theorem flags_ofDatapath {c : Circuit} (d : Datapath c δ) : (ofDatapath d).flags = d.flags :=
  rfl

def get (s : State size δ) : Register → Word
  | .a => s.a
  | .b => s.b
  | .x => s.x
  | .y => s.y
  | .stackPtr => s.stackPtr
  | .ioTarget => s.ioTarget

def set (s : State size δ) (r : Register) (word : Word) : State size δ :=
  match r with
  | .a => { s with a := word }
  | .b => { s with b := word }
  | .x => { s with x := word }
  | .y => { s with y := word }
  | .stackPtr => { s with stackPtr := word }
  | .ioTarget => { s with ioTarget := word }

def word (s : State size δ) (address : Word) : Word := s.memory.getD address 0

def store (s : State size δ) (address word : Word) : State size δ :=
  { s with memory := s.memory.setIfInBounds address word }

/-- Loads the instruction at `pc`, whose first step is the next to be performed. -/
def fetch (s : State size δ) : State size δ :=
  { s with address := s.pc, instruction := s.word s.pc, tick := 0 }

end State

inductive Meaning where
  | nothing
  | halt
  | jump
  | branch (condition : Condition)
  | jumpToA
  | copy (source target : Register)
  | loadOperand (target : Register)
  | clearB
  | combine (op : Operator)
  | combineOperand (op : Operator)
  | input
  | output
  | outputOperand
  | readDirect
  | readIndirect
  | writeDirect
  | writeIndirect
  | writeOperand
  | writeCopy
  | readStack
  | writeStack
  | pushOperand
  | pushX
  | popX
  | call
  | ret
deriving DecidableEq, Repr

/-- What an instruction does, apart from loading the next one. The target of a call is read after
the return point was stored, which matters if it is stored there. -/
def Meaning.perform (wordSize : Nat) {size : Nat} {δ : Type} [Device δ] (meaning : Meaning)
    (s : State size δ) : State size δ :=
  let behind (n : Nat) : Word := (s.pc + n) % wordSize
  let i1 := s.word (behind 1)
  let i2 := s.word (behind 2)
  let offset := Operator.minus.result wordSize s.stackPtr i1
  let pushed := Operator.minus.result wordSize s.stackPtr 1
  let popped := Operator.plus.result wordSize s.stackPtr 1
  match meaning with
  | .nothing | .halt => { s with pc := behind 1 }
  | .jump => { s with pc := i1 }
  | .branch condition => { s with pc := if condition.holds s.flags then i1 else behind 2 }
  | .jumpToA => { s with pc := s.a }
  | .copy source target => { s.set target (s.get source) with pc := behind 1 }
  | .loadOperand target => { s.set target i1 with pc := behind 2 }
  | .clearB => { s with b := 0, pc := behind 1 }
  | .combine op =>
    let result := op.result wordSize s.a s.b
    { s with a := result.value, flags := result.flags, pc := behind 1 }
  | .combineOperand op =>
    let result := op.result wordSize s.a i1
    { s with a := result.value, b := i1, flags := result.flags, pc := behind 2 }
  | .input =>
    let (word, ports) := s.ports.read s.ioTarget
    { s with a := word % wordSize, ports, pc := behind 1 }
  | .output => { s with ports := s.ports.write s.ioTarget s.a, pc := behind 1 }
  | .outputOperand => { s with ports := s.ports.write s.ioTarget i1, pc := behind 2 }
  | .readDirect => { s with a := s.word i1, pc := behind 2 }
  | .readIndirect => { s with a := s.word s.b, pc := behind 1 }
  | .writeDirect => { s.store i1 s.a with pc := behind 2 }
  | .writeIndirect => { s.store s.b s.a with pc := behind 1 }
  | .writeOperand => { s.store i2 i1 with a := i1, pc := behind 3 }
  | .writeCopy => { s.store i2 (s.word i1) with a := s.word i1, pc := behind 3 }
  | .readStack =>
    { s with x := s.word offset.value, a := s.stackPtr, b := i1, flags := offset.flags,
             pc := behind 2 }
  | .writeStack =>
    { s.store offset.value s.x with a := s.stackPtr, b := i1, flags := offset.flags,
                                    pc := behind 2 }
  | .pushOperand =>
    { s.store pushed.value i1 with a := i1, b := 1, stackPtr := pushed.value,
                                   flags := pushed.flags, pc := behind 2 }
  | .pushX =>
    { s.store pushed.value s.x with a := s.stackPtr, b := 1, stackPtr := pushed.value,
                                    flags := pushed.flags, pc := behind 1 }
  | .popX =>
    { s with x := s.word s.stackPtr, a := s.stackPtr, b := 1, stackPtr := popped.value,
             flags := popped.flags, pc := behind 1 }
  | .call =>
    let s := s.store pushed.value s.pc
    { s with a := s.stackPtr, b := 1, stackPtr := pushed.value, flags := pushed.flags,
             pc := s.word (behind 1) }
  | .ret =>
    { s with a := s.stackPtr, b := 1, stackPtr := popped.value, flags := popped.flags,
             pc := (s.word s.stackPtr + 2) % wordSize }

def meanings : List (String × Meaning) :=
  [("nop", .nothing), ("jmp", .jump), ("hlt", .halt),
    ("cout", .outputOperand), ("aout", .output), ("inp", .input), ("iot", .loadOperand .ioTarget),
    ("atb", .copy .a .b), ("bta", .copy .b .a), ("atx", .copy .a .x), ("aty", .copy .a .y),
    ("xta", .copy .x .a), ("yta", .copy .y .a), ("btx", .copy .b .x), ("bty", .copy .b .y),
    ("xtb", .copy .x .b), ("ytb", .copy .y .b), ("xty", .copy .x .y), ("ytx", .copy .y .x),
    ("loa", .loadOperand .a), ("lob", .loadOperand .b), ("lox", .loadOperand .x),
    ("loy", .loadOperand .y), ("rsb", .clearB),
    ("sum", .combine .plus), ("sub", .combine .minus), ("add", .combineOperand .plus),
    ("rem", .combineOperand .minus),
    ("jpz", .branch .zero), ("jnz", .branch .notZero), ("jpc", .branch .carry),
    ("jnc", .branch .notCarry), ("jpa", .jumpToA),
    ("movma", .readDirect), ("movam", .writeDirect), ("movpa", .readIndirect),
    ("movap", .writeIndirect), ("movcm", .writeOperand), ("movmm", .writeCopy),
    ("movsx", .readStack), ("movxs", .writeStack), ("pushc", .pushOperand), ("pushx", .pushX),
    ("pop", .popX), ("call", .call), ("ret", .ret)]

end BusMachine.Standard
