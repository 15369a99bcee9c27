import BusMachine.Proofs.Standard.Meaning

/-!
The steps of the standard microcode as transfers of one word over the bus, and the proof that the
transfers of an instruction add up to its meaning.
-/

namespace BusMachine.Standard

inductive Source where
  | nothing
  | one
  | pc
  | register (r : Register)
  | memory
  | port
  | result (op : Operator)
deriving DecidableEq, Repr

inductive Target where
  | nothing
  | instruction
  | pc
  | address
  | register (r : Register)
  | memory
  | port
deriving DecidableEq, Repr

structure Transfer where
  source : Source := .nothing
  target : Target := .nothing
  advance : Bool := false
  restart : Bool := false
  halt : Bool := false
deriving DecidableEq, Repr

section Performing

variable {size : Nat} {δ : Type}

def State.count (wordSize : Nat) (advance : Bool) (s : State size δ) : State size δ :=
  { s with tick := (s.tick + 1) % wordSize
           pc := if advance then (s.pc + 1) % wordSize else s.pc }

def State.restart (again : Bool) (s : State size δ) : State size δ :=
  { s with tick := if again then 0 else s.tick }

variable [Device δ]

def Source.perform (wordSize : Nat) (s : State size δ) : Source → Word × State size δ
  | .nothing => (0, s)
  | .one => (1, s)
  | .pc => (s.pc, s)
  | .register r => (s.get r, s)
  | .memory => (s.word s.address, s)
  | .port =>
    let (word, ports) := s.ports.read s.ioTarget
    (word % wordSize, { s with ports })
  | .result op =>
    let result := op.result wordSize s.a s.b
    (result.value, { s with flags := result.flags })

def Target.perform (word : Word) (s : State size δ) : Target → State size δ
  | .nothing => s
  | .instruction => { s with instruction := word }
  | .pc => { s with pc := word }
  | .address => { s with address := word }
  | .register r => s.set r word
  | .memory => s.store s.address word
  | .port => { s with ports := s.ports.write s.ioTarget word }

def Transfer.perform (wordSize : Nat) (s : State size δ) (t : Transfer) : State size δ :=
  let (word, s) := t.source.perform wordSize (s.count wordSize t.advance)
  (t.target.perform word s).restart t.restart

theorem Transfer.perform_eq (wordSize : Nat) (s : State size δ) (t : Transfer) :
    t.perform wordSize s =
      (t.target.perform (t.source.perform wordSize (s.count wordSize t.advance)).1
        (t.source.perform wordSize (s.count wordSize t.advance)).2).restart t.restart :=
  rfl

section Keeping

variable {wordSize : Nat} {s : State size δ} {t : Transfer}

theorem Target.perform_tick (target : Target) (word : Word) (s : State size δ) :
    (target.perform word s).tick = s.tick := by
  cases target with
  | register r => cases r <;> rfl
  | _ => rfl

theorem Target.perform_flags (target : Target) (word : Word) (s : State size δ) :
    (target.perform word s).flags = s.flags := by
  cases target with
  | register r => cases r <;> rfl
  | _ => rfl

theorem Transfer.perform_tick (h : t.restart = false) :
    (t.perform wordSize s).tick = (s.tick + 1) % wordSize := by
  have source : (t.source.perform wordSize (s.count wordSize t.advance)).2.tick =
      (s.tick + 1) % wordSize := by
    cases t.source <;> rfl
  rw [Transfer.perform_eq, h]
  exact (Target.perform_tick _ _ _).trans source

theorem Transfer.perform_instruction (h : t.target ≠ .instruction) :
    (t.perform wordSize s).instruction = s.instruction := by
  have source : (t.source.perform wordSize (s.count wordSize t.advance)).2.instruction =
      s.instruction := by
    cases t.source <;> rfl
  have target : ∀ (word : Word) (s : State size δ),
      (t.target.perform word s).instruction = s.instruction := by
    intro word s
    cases htarget : t.target with
    | instruction => exact absurd htarget h
    | register r => cases r <;> rfl
    | _ => rfl
  rw [Transfer.perform_eq]
  exact (target _ _).trans source

theorem Transfer.perform_flags (h : ∀ op, t.source ≠ .result op) :
    (t.perform wordSize s).flags = s.flags := by
  have source : (t.source.perform wordSize (s.count wordSize t.advance)).2.flags = s.flags := by
    cases hsource : t.source with
    | result op => exact absurd hsource (h op)
    | _ => rfl
  rw [Transfer.perform_eq]
  exact (Target.perform_flags _ _ _).trans source

end Keeping

end Performing

def atPc : List Transfer := [{ source := .pc, target := .address }]

def nextWord : List Transfer := { advance := true } :: atPc

def loadInstruction : Transfer := { source := .memory, target := .instruction, restart := true }

/-- Takes the stack pointer down or up by one, through `a` and `b`. -/
def moveStack (op : Operator) : List Transfer :=
  [{ source := .register .stackPtr, target := .register .a },
    { source := .one, target := .register .b },
    { source := .result op, target := .register .stackPtr }]

/-- Addresses the cell that lies the operand below the stack pointer. -/
def atStackOffset : List Transfer :=
  [{ source := .memory, target := .register .b },
    { source := .register .stackPtr, target := .register .a },
    { source := .result .minus, target := .address }]

def toOperand : List Transfer := nextWord ++ [{ source := .memory, target := .pc }] ++ atPc

/-- The steps of an instruction that begins in a flag state, up to the last one, which loads the
next instruction. -/
def Meaning.transfers (flags : Flags) : Meaning → List Transfer
  | .nothing => nextWord
  | .halt => { halt := true } :: nextWord
  | .jump => toOperand
  | .branch condition => if condition.holds flags then toOperand else nextWord ++ nextWord
  | .jumpToA => { source := .register .a, target := .pc } :: atPc
  | .copy source target => { source := .register source, target := .register target } :: nextWord
  | .loadOperand target =>
    nextWord ++ [{ source := .memory, target := .register target }] ++ nextWord
  | .clearB => { target := .register .b } :: nextWord
  | .combine op => { source := .result op, target := .register .a } :: nextWord
  | .combineOperand op =>
    nextWord ++ [{ source := .memory, target := .register .b },
      { source := .result op, target := .register .a }] ++ nextWord
  | .input => { source := .port, target := .register .a } :: nextWord
  | .output => { source := .register .a, target := .port } :: nextWord
  | .outputOperand => nextWord ++ [{ source := .memory, target := .port }] ++ nextWord
  | .readDirect =>
    nextWord ++ [{ source := .memory, target := .address },
      { source := .memory, target := .register .a }] ++ nextWord
  | .readIndirect =>
    [{ source := .register .b, target := .address }, { source := .memory, target := .register .a }]
      ++ nextWord
  | .writeDirect =>
    nextWord ++ [{ source := .memory, target := .address },
      { source := .register .a, target := .memory }] ++ nextWord
  | .writeIndirect =>
    [{ source := .register .b, target := .address }, { source := .register .a, target := .memory }]
      ++ nextWord
  | .writeOperand =>
    nextWord ++ [{ source := .memory, target := .register .a }] ++ nextWord ++
      [{ source := .memory, target := .address }, { source := .register .a, target := .memory }] ++
      nextWord
  | .writeCopy =>
    nextWord ++ [{ source := .memory, target := .address },
      { source := .memory, target := .register .a }] ++ nextWord ++
      [{ source := .memory, target := .address }, { source := .register .a, target := .memory }] ++
      nextWord
  | .readStack =>
    nextWord ++ atStackOffset ++ [{ source := .memory, target := .register .x }] ++ nextWord
  | .writeStack =>
    nextWord ++ atStackOffset ++ [{ source := .register .x, target := .memory }] ++ nextWord
  | .pushOperand =>
    nextWord ++ moveStack .minus ++ [{ source := .memory, target := .register .a },
      { source := .register .stackPtr, target := .address },
      { source := .register .a, target := .memory }] ++ nextWord
  | .pushX =>
    moveStack .minus ++ [{ source := .register .stackPtr, target := .address },
      { source := .register .x, target := .memory }] ++ nextWord
  | .popX =>
    [{ source := .register .stackPtr, target := .address },
      { source := .memory, target := .register .x }] ++ moveStack .plus ++ nextWord
  | .call =>
    moveStack .minus ++ [{ source := .register .stackPtr, target := .address },
      { source := .pc, target := .memory }] ++ toOperand
  | .ret =>
    [{ source := .register .stackPtr, target := .address }, { source := .memory, target := .pc },
      { source := .register .stackPtr, target := .register .a, advance := true },
      { source := .one, target := .register .b, advance := true },
      { source := .result .plus, target := .register .stackPtr }] ++ atPc

section Blocks

variable {size : Nat} {δ : Type} [Device δ] (wordSize : Nat) (s : State size δ)

attribute [local simp] Transfer.perform Source.perform Target.perform State.count State.restart
  State.fetch State.word State.store State.get State.set

@[simp] theorem foldl_nextWord : nextWord.foldl (Transfer.perform wordSize) s =
    { s with tick := (s.tick + 2) % wordSize
             pc := (s.pc + 1) % wordSize
             address := (s.pc + 1) % wordSize } := by
  simp [nextWord, atPc]

@[simp] theorem foldl_toOperand : toOperand.foldl (Transfer.perform wordSize) s =
    { s with tick := (s.tick + 4) % wordSize
             pc := s.word ((s.pc + 1) % wordSize)
             address := s.word ((s.pc + 1) % wordSize) } := by
  simp [toOperand, atPc]

@[simp] theorem foldl_moveStack (op : Operator) :
    (moveStack op).foldl (Transfer.perform wordSize) s =
      { s with tick := (s.tick + 3) % wordSize
               a := s.stackPtr
               b := 1
               stackPtr := (op.result wordSize s.stackPtr 1).value
               flags := (op.result wordSize s.stackPtr 1).flags } := by
  simp [moveStack]

@[simp] theorem foldl_atStackOffset :
    atStackOffset.foldl (Transfer.perform wordSize) s =
      { s with tick := (s.tick + 3) % wordSize
               a := s.stackPtr
               b := s.word s.address
               address := (Operator.minus.result wordSize s.stackPtr (s.word s.address)).value
               flags := (Operator.minus.result wordSize s.stackPtr (s.word s.address)).flags } := by
  simp [atStackOffset]

theorem foldl_transfers (meaning : Meaning) :
    (meaning.transfers s.flags ++ [loadInstruction]).foldl (Transfer.perform wordSize) s =
      (meaning.perform wordSize s).fetch := by
  cases meaning with
  | branch condition =>
    by_cases h : condition.holds s.flags = true
    · simp [Meaning.transfers, Meaning.perform, loadInstruction, h]
    · simp [Meaning.transfers, Meaning.perform, loadInstruction, h]
  | copy source target =>
    cases source <;> cases target <;> simp [Meaning.transfers, Meaning.perform, loadInstruction]
  | loadOperand target =>
    cases target <;> simp [Meaning.transfers, Meaning.perform, loadInstruction]
  | _ => simp [Meaning.transfers, Meaning.perform, loadInstruction, atPc]

end Blocks

end BusMachine.Standard
