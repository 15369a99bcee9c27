import BusMachine.Device

/-!
A pair of byte streams. Only the low byte of a written word goes out.
-/

namespace BusMachine

structure ByteStreamDevice where
  /-- Bytes that were not read yet; after them every read is 0. -/
  input : List UInt8 := []
  output : ByteArray := .empty

namespace ByteStreamDevice

def read (d : ByteStreamDevice) : Word × ByteStreamDevice :=
  match d.input with
  | [] => (0, d)
  | byte :: rest => (byte.toNat, { d with input := rest })

def write (d : ByteStreamDevice) (word : Word) : ByteStreamDevice :=
  { d with output := d.output.push (UInt8.ofNat word) }

instance : Device ByteStreamDevice := ⟨read, write⟩

end ByteStreamDevice

end BusMachine
