import BusMachine.Assembly.Image
import BusMachine.CellText
import BusMachine.Device.Console
import BusMachine.Listing

/-!
A machine with a console on port 0, as it is operated from a page: the program is typed in and
assembled, single cells are edited, and the console takes and gives text.
-/

namespace BusMachine

/-- Writes the word that a text means into a memory cell. There is none if the text means none or
the address lies outside memory. -/
def Machine.typeCell {arch : Architecture} {δ : Type} (m : Machine arch δ) (address : Nat)
    (text : String) : Option (Word × Machine arch δ) :=
  match InstructionSet.wordOf? arch.instructions arch.wordSize text with
  | none => none
  | some value =>
    match m.datapath.writeCell address value with
    | .ok datapath => some (value, { m with datapath })
    | .error _ => none

/-- A machine with what was learned when its program was assembled. -/
structure Terminal (arch : Architecture) where
  machine : Machine arch ConsoleDevice
  annotations : Annotations := {}

namespace Terminal

def consolePort : Word := 0

variable {arch : Architecture}

def new (arch : Architecture) : Terminal arch :=
  let m : Machine arch ConsoleDevice := .new arch
  { machine := { m with datapath.ports := m.datapath.ports.insert consolePort {} } }

def console (t : Terminal arch) : ConsoleDevice :=
  (t.machine.datapath.ports.get? consolePort).getD {}

def loadSource (t : Terminal arch) (source : String) (strict : Bool) :
    Except Assembly.Fault (Terminal arch) := do
  let (annotations, machine) ← Assembly.loadSource t.machine source strict
  return { machine, annotations }

def advance (t : Terminal arch) (dt : Float) : Bool × Terminal arch :=
  let (ticked, machine) := t.machine.advance dt
  (ticked, { t with machine })

def tick (t : Terminal arch) : Bool × Terminal arch :=
  let (report, machine) := t.machine.tick
  (report.halted, { t with machine })

def start (t : Terminal arch) : Terminal arch := { t with machine := t.machine.start }

def stop (t : Terminal arch) : Terminal arch := { t with machine := t.machine.stop }

def reset (t : Terminal arch) : Terminal arch := { t with machine := t.machine.reset }

def isRunning (t : Terminal arch) : Bool := t.machine.clock.active

def typeText (t : Terminal arch) (text : String) : Terminal arch :=
  let words := text.toList.map (Word.ofChar arch.wordSize)
  let ports := t.machine.datapath.ports.modify consolePort (·.enqueue words)
  { t with machine.datapath.ports := ports }

def typeCell (t : Terminal arch) (address : Nat) (text : String) : Option Word × Terminal arch :=
  match t.machine.typeCell address text with
  | some (value, machine) => (some value, { t with machine })
  | none => (none, t)

def setCell (t : Terminal arch) (address : Nat) (text : String) : Bool × Terminal arch :=
  let (value, t) := t.typeCell address text
  (value.isSome, t)

def rows (t : Terminal arch) : List ListingRow :=
  { instructions := arch.instructions, annotations := some t.annotations : Listing }.rows
    t.machine.datapath.memory.toList

end Terminal

end BusMachine
