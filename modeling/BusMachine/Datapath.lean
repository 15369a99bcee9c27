import BusMachine.Device
import BusMachine.Parameters
import BusMachine.Text.Numeral
import BusMachine.Text.Whitespace
import BusMachine.Wiring

/-!
The datapath: the words of all slots, the bus, the flags, memory and ports.

A cycle begins with an empty bus and no line asserted. Then lines are asserted, by name with
`assertNamed` or by slot with `assert`. When the cycle ends, the asserted lines take effect: first
every slot counts up and drives the bus, then every slot takes over the bus, and then slots are
reset. All that is driven is combined by OR before anything is taken over, and a reset comes after
the word was used.
-/

namespace BusMachine

/-- What does not change about a datapath: accepted parameters and a wiring. -/
structure Circuit where
  params : Parameters
  valid : params.Valid
  wiring : Wiring

namespace Circuit

def ofComponents (params : Parameters) (components : List Component) :
    Except BuildFault Circuit := do
  let valid ← params.validate
  let wiring ← Wiring.ofComponents components
  return { params, valid := valid.down, wiring }

abbrev size (c : Circuit) : Nat := c.wiring.size

abbrev wordSize (c : Circuit) : Nat := c.params.wordSize

abbrev memorySize (c : Circuit) : Nat := c.params.memorySize

end Circuit

inductive Action (n : Nat) where
  | line (slot : Fin n) (signal : Signal)
  | halt
  | literal (value : Word)
deriving DecidableEq, Repr

structure Datapath (c : Circuit) (δ : Type) where
  values : Vector Word c.size
  active : Vector Lines c.size
  bus : Word
  flags : Flags
  memory : Vector Word c.memorySize
  ports : Ports δ
  halting : Bool

structure SlotReading where
  name : String
  value : Word
  lines : Lines
  active : Lines
deriving DecidableEq, Repr

namespace Datapath

variable {c : Circuit} {δ : Type}

def initial : Datapath c δ where
  values := Vector.replicate _ 0
  active := Vector.replicate _ Lines.none
  bus := 0
  flags := {}
  memory := Vector.replicate _ 0
  ports := .empty
  halting := false

def valueAt (d : Datapath c δ) : Place c.size → Nat
  | .single slot => d.values[slot]
  | .double low high => d.values[low] + d.values[high] * c.wordSize

def valueOf (d : Datapath c δ) (name : String) : Except RequestFault Nat :=
  match c.wiring.place? name with
  | some place => .ok (d.valueAt place)
  | none => .error (.unknownComponent name)

/-- The cell that an address register selects. Addresses wrap around at the end of memory. -/
def cell (d : Datapath c δ) (address : Place c.size) : Fin c.memorySize :=
  ⟨d.valueAt address % c.memorySize, Nat.mod_lt _ c.valid.memorySize_pos⟩

def portNumber (d : Datapath c δ) (selector : Place c.size) : Word :=
  d.valueAt selector % c.wordSize

def readings (d : Datapath c δ) : List SlotReading :=
  (List.finRange c.size).map fun i =>
    let slot := c.wiring.slots[i]
    { name := slot.name, value := d.values[i], lines := slot.lines, active := d.active[i] }

def beginCycle (d : Datapath c δ) : Datapath c δ :=
  { d with bus := 0, active := Vector.replicate _ Lines.none, halting := false }

def assert (d : Datapath c δ) : Action c.size → Datapath c δ
  | .line slot signal => { d with active := d.active.set slot (d.active[slot].insert signal) }
  | .halt => { d with halting := true }
  | .literal value => { d with bus := d.bus ||| value }

def assertAll (d : Datapath c δ) (actions : List (Action c.size)) : Datapath c δ :=
  actions.foldl assert d

def machineAction? (signal : String) : Option (Action c.size) :=
  if Text.sameLetters signal "halt" then some .halt
  else (Text.natural? maxWord (Text.trim signal.toList)).map .literal

/-- The actions that asserting the line called `signal` of the component called `name` stands for:
one for each slot that the line reaches, all of which must have it. -/
def namedActions (c : Circuit) (name signal : String) :
    Except RequestFault (List (Action c.size)) :=
  let refused := Except.error (.unknownSignal name signal)
  if name = reservedName then
    match machineAction? signal with
    | some action => .ok [action]
    | none => refused
  else match c.wiring.place? name with
    | none => .error (.unknownComponent name)
    | some place =>
      match Signal.ofName? signal with
      | none => refused
      | some line =>
        let targets := place.targets line
        if targets.all fun i => c.wiring.slots[i].lines.contains line then
          .ok (targets.map (.line · line))
        else refused

/-- Asserts a line by name. Under the reserved name, `halt` asks for a halt and a number goes onto
the bus. -/
def assertNamed (d : Datapath c δ) (name signal : String) : Except RequestFault (Datapath c δ) :=
  match namedActions c name signal with
  | .ok actions => .ok (d.assertAll actions)
  | .error fault => .error fault

/-- Counts a slot up. The low half of a double register carries into the high one when it comes
to 0. -/
def increment (d : Datapath c δ) (i : Fin c.size) : Datapath c δ :=
  let next := (d.values[i] + 1) % c.wordSize
  let values := d.values.set i next
  match c.wiring.slots[i].carryInto with
  | some high =>
    if next = 0 then { d with values := values.set high ((values[high] + 1) % c.wordSize) }
    else { d with values }
  | none => { d with values }

def put (d : Datapath c δ) (i : Fin c.size) (word : Word) : Datapath c δ :=
  { d with values := d.values.set i word, bus := d.bus ||| word }

/-- Keeps a result in slot `i`, puts it on the bus and sets the flags by it. -/
def putResult (d : Datapath c δ) (i : Fin c.size) (result : Arithmetic) : Datapath c δ :=
  { d.put i result.value with flags := result.flags }

variable [Device δ]

def drive (d : Datapath c δ) (i : Fin c.size) : Datapath c δ :=
  match c.wiring.slots[i].kind with
  | .register => { d with bus := d.bus ||| d.values[i] }
  | .memory address => d.put i d.memory[d.cell address]
  | .port selector =>
    let (word, ports) := d.ports.read (d.portNumber selector)
    { d with ports }.put i (word % c.wordSize)
  | .adder lhs rhs => d.putResult i (.add c.wordSize d.values[lhs] d.values[rhs])
  | .subtractor lhs rhs => d.putResult i (.sub c.wordSize d.values[lhs] d.values[rhs])

def latch (d : Datapath c δ) (word : Word) (i : Fin c.size) : Datapath c δ :=
  match c.wiring.slots[i].kind with
  | .register => { d with values := d.values.set i word }
  | .memory address =>
    { d with memory := d.memory.set (d.cell address) word, values := d.values.set i word }
  | .port selector =>
    { d with ports := d.ports.write (d.portNumber selector) word, values := d.values.set i word }
  | .adder _ _ | .subtractor _ _ => d

def drivePhase (d : Datapath c δ) (i : Fin c.size) : Datapath c δ :=
  let lines := d.active[i]
  let d := if lines.incr then d.increment i else d
  if lines.drive then d.drive i else d

def latchPhase (word : Word) (d : Datapath c δ) (i : Fin c.size) : Datapath c δ :=
  if d.active[i].latch then d.latch word i else d

omit [Device δ] in
def resetPhase (d : Datapath c δ) (i : Fin c.size) : Datapath c δ :=
  if d.active[i].reset then { d with values := d.values.set i 0 } else d

/-- Lets the asserted lines take effect. What is taken over is the bus reduced to a word. -/
def endCycle (d : Datapath c δ) : Datapath c δ :=
  let d := Fin.foldl c.size drivePhase d
  let d := Fin.foldl c.size (latchPhase (d.bus % c.wordSize)) d
  Fin.foldl c.size resetPhase d

omit [Device δ]

/-- Sets every slot, the bus and the flags back to 0. Memory and ports stay as they are. -/
def reset (d : Datapath c δ) : Datapath c δ :=
  { d.beginCycle with values := Vector.replicate _ 0, flags := {} }

def writeCell (d : Datapath c δ) (address : Nat) (value : Word) :
    Except RequestFault (Datapath c δ) :=
  if h : address < c.memorySize then
    .ok { d with memory := d.memory.set address (value % c.wordSize) h }
  else .error (.addressOutOfRange address c.memorySize)

/-- Replaces memory by an image, each word reduced, with zeros after it. -/
def load (d : Datapath c δ) (image : Array Word) : Except RequestFault (Datapath c δ) :=
  if image.size ≤ c.memorySize then
    .ok { d with memory := Vector.ofFn fun i => image.getD i 0 % c.wordSize }
  else .error (.imageTooLarge image.size c.memorySize)

end Datapath

end BusMachine
