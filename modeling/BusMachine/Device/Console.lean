import BusMachine.Device

/-!
A terminal: typed characters wait in a queue, and output is cut into lines.
-/

namespace BusMachine

structure ConsoleDevice where
  input : List Word := []
  lines : Array String := #[]
  /-- The output after the last finished line. -/
  pending : String := ""
deriving DecidableEq, Repr

namespace ConsoleDevice

/-- The next typed character, or 0 where none waits. -/
def read (d : ConsoleDevice) : Word × ConsoleDevice :=
  match d.input with
  | [] => (0, d)
  | word :: rest => (word, { d with input := rest })

/-- Writes one character; a line feed finishes the line. -/
def write (d : ConsoleDevice) (word : Word) : ConsoleDevice :=
  let c := word.toChar
  if c = '\n' then { d with lines := d.lines.push d.pending, pending := "" }
  else { d with pending := d.pending.push c }

def enqueue (d : ConsoleDevice) (words : List Word) : ConsoleDevice :=
  { d with input := d.input ++ words }

instance : Device ConsoleDevice := ⟨read, write⟩

end ConsoleDevice

end BusMachine
