import BusMachine.Fault

/-!
Positions in a source text, and what can be wrong with one.
-/

namespace BusMachine.Assembly

/-- A line and a column, both counted in characters from 1. -/
structure Position where
  line : Nat
  column : Nat
deriving DecidableEq, Repr

namespace Position

def start : Position := ⟨1, 1⟩

def after (p : Position) (c : Char) : Position :=
  if c = '\n' then ⟨p.line + 1, 1⟩ else ⟨p.line, p.column + 1⟩

def text (p : Position) : String := s!"{p.line}:{p.column}"

end Position

inductive Cause where
  | undefinedLabel (label : String)
  | programTooLarge (length size : Nat)
  | addressOverflow (label : String) (address : Nat)
  | unknownToken (word : String)
  | load (fault : RequestFault)
deriving DecidableEq, Repr

def Cause.message : Cause → String
  | undefinedLabel label => s!"undefined label '{label}'"
  | programTooLarge length size =>
    s!"program of {length} words does not fit in {size} words of memory"
  | addressOverflow label address =>
    s!"label '{label}' resolves to address {address}, which does not fit in a word"
  | unknownToken word => s!"unknown token '{word}'"
  | load fault => s!"failed to load image: {fault.message}"

/-- A cause with the position of the token that it concerns, if it concerns one. -/
structure Fault where
  cause : Cause
  position : Option Position := none
deriving DecidableEq, Repr

namespace Fault

def message (f : Fault) : String :=
  match f.position with
  | some p => s!"{p.text}: {f.cause.message}"
  | none => f.cause.message

def diagnostic (f : Fault) (file : String) : String :=
  match f.position with
  | some p => s!"{file}:{p.text}: error: {f.cause.message}"
  | none => s!"{file}: error: {f.cause.message}"

end Fault

end BusMachine.Assembly
