import BusMachine.SparseTable
import BusMachine.Word

/-!
Devices and the ports they are bound to. A device is whatever answers reads and takes writes; what
it remembers between the two is its own business, so a statement about all device types is one
about every possible outside world.
-/

namespace BusMachine

/-- States of something that can be bound to a port. -/
class Device (δ : Type u) where
  read : δ → Word × δ
  write : δ → Word → δ

abbrev Ports (δ : Type u) := SparseTable δ

namespace Ports

variable {δ : Type u} [Device δ]

/-- Reads from a port; a port without a device reads 0. -/
def read (ports : Ports δ) (port : Word) : Word × Ports δ :=
  match ports.get? port with
  | none => (0, ports)
  | some device =>
    let (word, device) := Device.read device
    (word, ports.insert port device)

/-- Writes to a port; a port without a device drops the word. -/
def write (ports : Ports δ) (port word : Word) : Ports δ :=
  ports.modify port (Device.write · word)

omit [Device δ] in
def text (ports : Ports δ) : String :=
  let numbers := ", ".intercalate (ports.keys.map toString)
  "IoRegistry \x7b ports: [" ++ numbers ++ "] \x7d"

end Ports

end BusMachine
