import BusMachine.SparseTable
import BusMachine.Word

/-!
Annotations of a memory image: which cells have labels, where the data lies and what it is called.
-/

namespace BusMachine

structure DataExtent where
  name : String
  size : Nat
deriving DecidableEq, Repr

structure Annotations where
  /-- The address of the first data cell. -/
  codeEnd : Word := 0
  /-- Labels by address, of several the first that was declared. -/
  labels : SparseTable String := .empty
  data : SparseTable DataExtent := .empty

namespace Annotations

def label? (a : Annotations) (address : Word) : Option String := a.labels.get? address

/-- The lowest address with a label. -/
def address? (a : Annotations) (label : String) : Option Word :=
  (a.labels.entries.find? fun entry => entry.2 == label).map Prod.fst

/-- The data that a cell belongs to, with its start. -/
def dataAround? (a : Annotations) (address : Word) : Option (Word × DataExtent) :=
  match a.data.floor? address with
  | some (start, extent) => if address - start < extent.size then some (start, extent) else none
  | none => none

end Annotations

end BusMachine
