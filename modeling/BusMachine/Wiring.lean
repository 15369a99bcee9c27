import BusMachine.Component
import BusMachine.Fault

/-!
Wiring: a component list with its names resolved. Every word that a component holds has a slot, so a
double register has two adjacent ones, and whatever refers to a component refers to its slots.
References into a wiring of `n` slots are numbers below `n` by their type.

`Wiring.ofComponents` first declares all names and then resolves the components in order, so that a
component may refer to a register that is declared after it.
-/

namespace BusMachine

/-- What a name stands for. -/
inductive Place (n : Nat) where
  | single (slot : Fin n)
  /-- Two slots, read as `low + high * wordSize`. -/
  | double (low high : Fin n)
deriving DecidableEq, Repr

/-- The slots that a line asserted under a name reaches. Counting starts in the low half of a double
register, which carries into the high half by itself. -/
def Place.targets {n : Nat} : Place n → Signal → List (Fin n)
  | .single slot, _ => [slot]
  | .double low _, .incr => [low]
  | .double low high, _ => [low, high]

inductive SlotKind (n : Nat) where
  | register
  | memory (address : Place n)
  | port (selector : Place n)
  | adder (lhs rhs : Fin n)
  | subtractor (lhs rhs : Fin n)
deriving DecidableEq, Repr

structure Slot (n : Nat) where
  name : String
  kind : SlotKind n
  lines : Lines
  /-- The slot that counts up when this one wraps around. -/
  carryInto : Option (Fin n) := none
deriving DecidableEq, Repr

structure Wiring where
  size : Nat
  slots : Vector (Slot size) size
  names : List (String × Place size)

/-- The name that stands for the machine itself and never for a component. -/
def reservedName : String := "_"

namespace Wiring

variable {n : Nat}

def slotCount : List Component → Nat
  | [] => 0
  | component :: rest => component.width + slotCount rest

def declare (names : List (String × Place n)) (name : String) (place : Place n) :
    Except BuildFault (List (String × Place n)) :=
  if name = reservedName ∨ (names.lookup name).isSome then .error (.duplicateComponent name)
  else .ok ((name, place) :: names)

def declareAll : (components : List Component) → (start : Nat) →
    start + slotCount components = n → List (String × Place n) →
    Except BuildFault (List (String × Place n))
  | [], _, _, names => .ok names
  | component :: rest, start, h, names =>
    if hw : component.double = true then
      if component.kind ≠ .register then .error (.unsupportedSignal component.name "wide")
      else do
        have hs : start + 2 + slotCount rest = n := by
          simpa [slotCount, Component.width, hw, Nat.add_assoc] using h
        let low : Fin n := ⟨start, by omega⟩
        let high : Fin n := ⟨start + 1, by omega⟩
        let names ← declare names component.name (.double low high)
        let names ← declare names component.lowName (.single low)
        let names ← declare names component.highName (.single high)
        declareAll rest (start + 2) hs names
    else do
      have hs : start + 1 + slotCount rest = n := by
        simpa [slotCount, Component.width, hw, Nat.add_assoc] using h
      let names ← declare names component.name (.single ⟨start, by omega⟩)
      declareAll rest (start + 1) hs names

def lookup (names : List (String × Place n)) (name : String) : Except BuildFault (Place n) :=
  match names.lookup name with
  | some place => .ok place
  | none => .error (.unknownComponent name)

def lookupSlot (names : List (String × Place n)) (name : String) : Except BuildFault (Fin n) :=
  match names.lookup name with
  | some (.single slot) => .ok slot
  | _ => .error (.unknownComponent name)

def resolveKind (names : List (String × Place n)) :
    Component.Kind → Except BuildFault (SlotKind n)
  | .register => .ok .register
  | .memory address => return .memory (← lookup names address)
  | .port selector => return .port (← lookup names selector)
  | .adder lhs rhs => do
    let lhs ← lookupSlot names lhs
    let rhs ← lookupSlot names rhs
    return .adder lhs rhs
  | .subtractor lhs rhs => do
    let lhs ← lookupSlot names lhs
    let rhs ← lookupSlot names rhs
    return .subtractor lhs rhs

/-- The slot of a component of one word, whose lines must be such as its kind serves. -/
def resolveSingle (names : List (String × Place n)) (component : Component) :
    Except BuildFault (Slot n) :=
  match component.lines.toList.find? (!component.kind.servedLines.contains ·) with
  | some signal => .error (.unsupportedSignal component.name signal.name)
  | none => do
    let kind ← resolveKind names component.kind
    return { name := component.name, kind, lines := component.lines }

def resolveAll (names : List (String × Place n)) : (components : List Component) →
    (start : Nat) → start + slotCount components = n →
    Except BuildFault { slots : List (Slot n) // slots.length = slotCount components }
  | [], _, _ => .ok ⟨[], rfl⟩
  | component :: rest, start, h =>
    if hw : component.double = true then do
      have hs : start + 2 + slotCount rest = n := by
        simpa [slotCount, Component.width, hw, Nat.add_assoc] using h
      let low : Slot n :=
        { name := component.lowName, kind := .register, lines := component.lines,
          carryInto := some ⟨start + 1, by omega⟩ }
      let high : Slot n :=
        { name := component.highName, kind := .register, lines := component.lines }
      let slots ← resolveAll names rest (start + 2) hs
      return ⟨low :: high :: slots.1, by
        simp [slotCount, Component.width, hw, slots.2]; omega⟩
    else do
      have hs : start + 1 + slotCount rest = n := by
        simpa [slotCount, Component.width, hw, Nat.add_assoc] using h
      let slot ← resolveSingle names component
      let slots ← resolveAll names rest (start + 1) hs
      return ⟨slot :: slots.1, by
        simp [slotCount, Component.width, hw, slots.2]; omega⟩

def ofComponents (components : List Component) : Except BuildFault Wiring := do
  let names ← declareAll components 0 (Nat.zero_add _) []
  let slots ← resolveAll names components 0 (Nat.zero_add _)
  return { size := slotCount components, slots := ⟨slots.1.toArray, by simp [slots.2]⟩, names }

def place? (w : Wiring) (name : String) : Option (Place w.size) := w.names.lookup name

def slot? (w : Wiring) (name : String) : Option (Fin w.size) :=
  match w.place? name with
  | some (.single slot) => some slot
  | _ => none

def toList (w : Wiring) : List (Slot w.size) := w.slots.toList

end Wiring

end BusMachine
