/-!
Upper and lower case of the 26 basic Latin letters. Mnemonics, line names and the like are compared
without regard to it; every other character stands for itself.
-/

namespace BusMachine.Text

def lower (s : String) : String := String.ofList (s.toList.map Char.toLower)

def upper (s : String) : String := String.ofList (s.toList.map Char.toUpper)

/-- Equality without regard to case. -/
def sameLetters (s t : String) : Bool := lower s == lower t

end BusMachine.Text
