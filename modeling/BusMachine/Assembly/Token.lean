import BusMachine.Assembly.Fault
import BusMachine.Text.Numeral

/-!
Tokens of assembly text. Blanks separate tokens. A slash at the start of a token opens a comment
that ends with the next slash, and a quote there opens a string that ends with the next quote; in a
string, a backslash and two hexadecimal digits stand for a code. All else is a word, which ends at
the next blank.

The text is read character by character, each with its position, by an automaton whose `Mode` says
inside of what it is.
-/

namespace BusMachine.Assembly

inductive Lexeme where
  | word (text : String)
  | string (codes : List Nat) (terminated : Bool)
deriving DecidableEq, Repr

structure Token where
  lexeme : Lexeme
  position : Position
deriving DecidableEq, Repr

def isBlank (c : Char) : Bool := c == ' ' || c == '\t' || c == '\r' || c == '\n'

/-- What the next character is inside of. Texts and codes are held in reverse. -/
inductive Mode where
  | gap
  | comment
  | word (start : Position) (text : List Char)
  | string (start : Position) (codes : List Nat)
  | escape (start : Position) (codes : List Nat)
  | escapeLow (start : Position) (codes : List Nat) (high : Nat)
deriving DecidableEq, Repr

/-- The state of reading: where the next character is, what it is inside of, and the tokens that
ended before it. -/
structure Scanner where
  position : Position := .start
  mode : Mode := .gap
  tokens : Array Token := #[]

namespace Scanner

/-- The value of a digit in an escape; what is no digit counts as 0. -/
def escapeDigit (c : Char) : Nat := (Text.hexDigit? c).getD 0

def opening (position : Position) (c : Char) : Mode :=
  if isBlank c then .gap
  else if c = '/' then .comment
  else if c = '"' then .string position []
  else .word position [c]

def wordToken (start : Position) (text : List Char) : Token :=
  ⟨.word (String.ofList text.reverse), start⟩

def stringToken (start : Position) (codes : List Nat) (terminated : Bool) : Token :=
  ⟨.string codes.reverse terminated, start⟩

def step (s : Scanner) (c : Char) : Scanner :=
  let s' := { s with position := s.position.after c }
  match s.mode with
  | .gap => { s' with mode := opening s.position c }
  | .comment => { s' with mode := if c = '/' then .gap else .comment }
  | .word start text =>
    if isBlank c then { s' with mode := .gap, tokens := s.tokens.push (wordToken start text) }
    else { s' with mode := .word start (c :: text) }
  | .string start codes =>
    if c = '"' then
      { s' with mode := .gap, tokens := s.tokens.push (stringToken start codes true) }
    else if c = '\\' then { s' with mode := .escape start codes }
    else { s' with mode := .string start (c.toNat :: codes) }
  | .escape start codes => { s' with mode := .escapeLow start codes (escapeDigit c) }
  | .escapeLow start codes high =>
    { s' with mode := .string start ((high * 16 + escapeDigit c) :: codes) }

/-- The tokens at the end of the text. An escape that is cut short lacks digits of value 0. -/
def finish (s : Scanner) : Array Token :=
  match s.mode with
  | .gap | .comment => s.tokens
  | .word start text => s.tokens.push (wordToken start text)
  | .string start codes => s.tokens.push (stringToken start codes false)
  | .escape start codes => s.tokens.push (stringToken start (0 :: codes) false)
  | .escapeLow start codes high =>
    s.tokens.push (stringToken start ((high * 16) :: codes) false)

end Scanner

def Token.scan (source : String) : List Token :=
  (source.toList.foldl Scanner.step {}).finish.toList

end BusMachine.Assembly
