/-!
Written numbers. Integers are decimal, or hexadecimal after `0x`, with an optional sign; their
magnitude stops growing at `maxMagnitude`, so that no text is too long to be a number.
-/

namespace BusMachine.Text

inductive Radix where
  | decimal
  | hexadecimal
deriving DecidableEq, Repr

def hexDigit? (c : Char) : Option Nat :=
  if '0' ≤ c ∧ c ≤ '9' then some (c.toNat - '0'.toNat)
  else if 'a' ≤ c ∧ c ≤ 'f' then some (c.toNat - 'a'.toNat + 10)
  else if 'A' ≤ c ∧ c ≤ 'F' then some (c.toNat - 'A'.toNat + 10)
  else none

def isDigit (c : Char) : Bool := '0' ≤ c && c ≤ '9'

namespace Radix

def base : Radix → Nat
  | decimal => 10
  | hexadecimal => 16

def isDigit : Radix → Char → Bool
  | decimal, c => Text.isDigit c
  | hexadecimal, c => (hexDigit? c).isSome

end Radix

/-- The largest magnitude of an integer, that of a signed 64-bit one. -/
def maxMagnitude : Nat := 0x7fff_ffff_ffff_ffff

/-- The value of a run of digits, or `limit` where it is larger. -/
def digitsUpTo (limit base : Nat) (digits : List Char) : Nat :=
  digits.foldl (fun n c => min (n * base + (hexDigit? c).getD 0) limit) 0

/-- An optional minus sign and an optional `0x`, and the text after them. -/
def splitSignAndRadix (cs : List Char) : Bool × Radix × List Char :=
  let (negative, cs) := match cs with
    | '-' :: rest => (true, rest)
    | _ => (false, cs)
  match cs with
  | '0' :: 'x' :: rest => (negative, .hexadecimal, rest)
  | '0' :: 'X' :: rest => (negative, .hexadecimal, rest)
  | _ => (negative, .decimal, cs)

def ofDigits? (negative : Bool) (radix : Radix) (digits : List Char) : Option Int :=
  if digits.isEmpty then none
  else
    let magnitude : Int := digitsUpTo maxMagnitude radix.base digits
    some (if negative then -magnitude else magnitude)

def integer? (cs : List Char) : Option Int :=
  let (negative, radix, digits) := splitSignAndRadix cs
  if digits.all radix.isDigit then ofDigits? negative radix digits else none

/-- Reads the longest integer at the front of a text. A plus sign may stand before it in place of
the minus sign, but not beside another sign. -/
def leadingInteger? (cs : List Char) : Option Int :=
  match cs with
  | '+' :: '-' :: _ => none
  | '+' :: '+' :: _ => none
  | '+' :: rest => unsignedPart rest
  | _ => unsignedPart cs
where
  unsignedPart (cs : List Char) : Option Int :=
    let (negative, radix, digits) := splitSignAndRadix cs
    ofDigits? negative radix (digits.takeWhile radix.isDigit)

/-- Reads a whole text as a decimal number up to `limit`; a plus sign may stand before it. -/
def natural? (limit : Nat) (cs : List Char) : Option Nat :=
  let digits := match cs with
    | '+' :: rest => rest
    | _ => cs
  if digits.isEmpty || !digits.all isDigit then none
  else
    let n := digitsUpTo (limit + 1) 10 digits
    if n ≤ limit then some n else none

def padStart (width : Nat) (fill : Char) (text : String) : String :=
  String.ofList (List.replicate (width - text.length) fill) ++ text

def padEnd (width : Nat) (fill : Char) (text : String) : String :=
  text ++ String.ofList (List.replicate (width - text.length) fill)

def hex4 (n : Nat) : String := padStart 4 '0' (String.ofList (Nat.toDigits 16 n))

end BusMachine.Text
