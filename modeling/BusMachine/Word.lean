/-!
Machine words and the arithmetic of the adder and the subtractor.

A word is a number. A machine of word size `W` keeps its registers and memory cells below `W`;
`Arithmetic.add` and `Arithmetic.sub` bring their result back into that range and report, as the
carry, that it had to be brought back. Both are defined for every word size, also for one beyond the
address space, where a result keeps its low 16 bits only.
-/

namespace BusMachine

/-- The content of a register, of a memory cell or of the bus. -/
abbrev Word := Nat

def addressSpace : Nat := 65536

/-- The largest number that a cell or a port can carry, whatever the word size. -/
def maxWord : Word := addressSpace - 1

/-- The character with code `w`, or the replacement character where `w` is no scalar value. -/
def Word.toChar (w : Word) : Char :=
  if w.isValidChar then Char.ofNat w else '\uFFFD'

/-- A number brought back below `wordSize`, in the 16 bits of a cell. -/
def Word.reduce (wordSize n : Nat) : Word := n % wordSize % addressSpace

theorem Word.reduce_lt {wordSize : Nat} (h : 0 < wordSize) (n : Nat) :
    Word.reduce wordSize n < wordSize :=
  Nat.lt_of_le_of_lt (Nat.mod_le _ _) (Nat.mod_lt _ h)

theorem Word.reduce_eq_mod {wordSize : Nat} (h : 0 < wordSize) (hle : wordSize ≤ addressSpace)
    (n : Nat) : Word.reduce wordSize n = n % wordSize :=
  Nat.mod_eq_of_lt (Nat.lt_of_lt_of_le (Nat.mod_lt _ h) hle)

def Word.nearest (wordSize : Nat) (n : Int) : Word := min (min n.toNat (wordSize - 1)) maxWord

def Word.ofChar (wordSize : Nat) (c : Char) : Word := Word.nearest wordSize c.toNat

structure Flags where
  /-- The result left the range of words. -/
  carry : Bool := false
  zero : Bool := false
deriving DecidableEq, Repr, Inhabited

def Flags.all : List Flags := [⟨false, false⟩, ⟨false, true⟩, ⟨true, false⟩, ⟨true, true⟩]

theorem Flags.mem_all (f : Flags) : f ∈ Flags.all := by
  rcases f with ⟨_ | _, _ | _⟩ <;> decide

structure Arithmetic where
  value : Word
  /-- The exact result was not a word. -/
  carry : Bool
deriving DecidableEq, Repr

namespace Arithmetic

def flags (r : Arithmetic) : Flags := ⟨r.carry, r.value == 0⟩

def add (wordSize : Nat) (a b : Word) : Arithmetic :=
  ⟨.reduce wordSize (a + b), decide (wordSize ≤ a + b)⟩

/-- `a - b` on words below `wordSize`, where a difference below 0 borrows one `wordSize`. -/
def sub (wordSize : Nat) (a b : Word) : Arithmetic :=
  if a < b then ⟨.reduce wordSize (a + wordSize - b), true⟩
  else ⟨.reduce wordSize (a - b), false⟩

theorem add_eq {wordSize : Nat} (h : 0 < wordSize) (hle : wordSize ≤ addressSpace) (a b : Word) :
    add wordSize a b = ⟨(a + b) % wordSize, decide (wordSize ≤ a + b)⟩ := by
  unfold add
  rw [Word.reduce_eq_mod h hle]

theorem sub_eq {wordSize : Nat} (h : 0 < wordSize) (hle : wordSize ≤ addressSpace) (a b : Word) :
    sub wordSize a b = ⟨(a + wordSize - b) % wordSize, decide (a < b)⟩ := by
  unfold sub
  split
  · rename_i hlt
    rw [Word.reduce_eq_mod h hle, decide_eq_true hlt]
  · rename_i hlt
    rw [Word.reduce_eq_mod h hle, decide_eq_false hlt, Nat.sub_add_comm (Nat.le_of_not_lt hlt),
      Nat.add_mod_right]

theorem add_value_lt {wordSize : Nat} (h : 0 < wordSize) (a b : Word) :
    (add wordSize a b).value < wordSize :=
  Word.reduce_lt h _

theorem sub_value_lt {wordSize : Nat} (h : 0 < wordSize) (a b : Word) :
    (sub wordSize a b).value < wordSize := by
  unfold sub
  split <;> exact Word.reduce_lt h _

end Arithmetic

end BusMachine
