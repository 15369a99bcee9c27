/-!
Written characters: a quote and the character, with or without another quote behind it.
-/

namespace BusMachine.Text

/-- The character that a text is the written form of. -/
def quotedChar? : List Char → Option Char
  | ['\'', c] => some c
  | ['\'', c, '\''] => some c
  | _ => none

end BusMachine.Text
