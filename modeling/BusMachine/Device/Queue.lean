import BusMachine.Device

/-!
A device in memory: reads drain a queue of words and writes are kept in order.
-/

namespace BusMachine

structure QueueDevice where
  /-- The words that the next reads return; after them every read is 0. -/
  input : List Word := []
  output : Array Word := #[]
deriving DecidableEq, Repr

namespace QueueDevice

def read (d : QueueDevice) : Word × QueueDevice :=
  match d.input with
  | [] => (0, d)
  | word :: rest => (word, { d with input := rest })

def write (d : QueueDevice) (word : Word) : QueueDevice := { d with output := d.output.push word }

instance : Device QueueDevice := ⟨read, write⟩

def text (d : QueueDevice) : String := String.ofList (d.output.toList.map Word.toChar)

end QueueDevice

end BusMachine
