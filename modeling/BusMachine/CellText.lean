import BusMachine.Instruction
import BusMachine.Text.Character
import BusMachine.Text.Numeral
import BusMachine.Text.Whitespace

/-!
Texts that are typed into single memory cells.
-/

namespace BusMachine

/-- The word that a text means: an opcode by its mnemonic, a character or a leading number. White
space around it does not count. -/
def InstructionSet.wordOf? (set : InstructionSet) (wordSize : Nat) (text : String) : Option Word :=
  let cs := Text.trim text.toList
  match set.named? (String.ofList cs) with
  | some i => some i.opcode
  | none =>
    match Text.quotedChar? cs with
    | some c => some (Word.ofChar wordSize c)
    | none => (Text.leadingInteger? cs).map (Word.nearest wordSize)

end BusMachine
