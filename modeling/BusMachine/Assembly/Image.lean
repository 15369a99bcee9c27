import BusMachine.Assembly.Layout
import BusMachine.Machine

/-!
From source text to memory.
-/

namespace BusMachine.Assembly

structure Image where
  words : Array Word
  annotations : Annotations

def Image.ofSource (d : Dialect) (memorySize : Nat) (source : String) : Except Fault Image := do
  let program ← Program.parse d (Token.scan source)
  let layout := Layout.ofProgram program
  if memorySize < layout.imageLength then
    throw { cause := .programTooLarge layout.imageLength memorySize }
  let words ← layout.resolve program d.wordSize
  return { words, annotations := layout.annotations }

def Dialect.ofArchitecture (arch : Architecture) (strict : Bool) : Dialect :=
  { instructions := arch.instructions, wordSize := arch.wordSize, strict }

def Cause.ofLoading : RequestFault → Cause
  | .imageTooLarge length size => .programTooLarge length size
  | fault => .load fault

variable {arch : Architecture} {δ : Type}

/-- Assembles a source text into the memory of a machine. Registers, flags and clock stay as they
are, and so does memory if it fails. -/
def loadSource (m : Machine arch δ) (source : String) (strict : Bool) :
    Except Fault (Annotations × Machine arch δ) := do
  let image ← Image.ofSource (.ofArchitecture arch strict) arch.memorySize source
  match m.load image.words with
  | .ok m => return (image.annotations, m)
  | .error fault => throw { cause := .ofLoading fault }

/-- The answer to a request to assemble, and the machine that is left: the old one if the request
was refused. -/
def compile (m : Machine arch δ) (source : String) (strict : Bool) :
    Except Fault Annotations × Machine arch δ :=
  match loadSource m source strict with
  | .ok (annotations, m) => (.ok annotations, m)
  | .error fault => (.error fault, m)

end BusMachine.Assembly
