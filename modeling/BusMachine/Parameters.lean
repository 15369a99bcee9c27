import BusMachine.Fault

/-!
The sizes and the pace of a machine, and which of them are accepted.
-/

namespace BusMachine

structure Parameters where
  /-- Every register and memory cell holds a word below this. -/
  wordSize : Nat := 256
  memorySize : Nat := 256
  /-- Time between two ticks, in the unit in which time is fed to the clock. -/
  clockPeriod : Float := 10.0

namespace Parameters

/-- A memory of the whole address space, as registers of two words can address it. -/
def fullMemory : Parameters := { memorySize := addressSpace }

/-- What every machine relies on: there are at least two words, every word is an address, sizes fit
in the address space, and time advances. -/
structure Valid (p : Parameters) : Prop where
  two_le_wordSize : 2 ≤ p.wordSize
  wordSize_le : p.wordSize ≤ addressSpace
  wordSize_le_memorySize : p.wordSize ≤ p.memorySize
  memorySize_le : p.memorySize ≤ addressSpace
  clockPeriod_isFinite : p.clockPeriod.isFinite = true
  clockPeriod_pos : 0 < p.clockPeriod

theorem Valid.wordSize_pos {p : Parameters} (h : p.Valid) : 0 < p.wordSize :=
  Nat.lt_of_lt_of_le (by decide) h.two_le_wordSize

theorem Valid.memorySize_pos {p : Parameters} (h : p.Valid) : 0 < p.memorySize :=
  Nat.lt_of_lt_of_le h.wordSize_pos h.wordSize_le_memorySize

def validate (p : Parameters) : Except BuildFault (PLift p.Valid) :=
  if hw : 2 ≤ p.wordSize ∧ p.wordSize ≤ addressSpace then
    if hm : p.wordSize ≤ p.memorySize ∧ p.memorySize ≤ addressSpace then
      if hp : p.clockPeriod.isFinite = true ∧ 0 < p.clockPeriod then
        .ok ⟨⟨hw.1, hw.2, hm.1, hm.2, hp.1, hp.2⟩⟩
      else .error .invalidClockPeriod
    else .error (.invalidMemorySize p.memorySize p.wordSize)
  else .error (.invalidWordSize p.wordSize)

end Parameters

end BusMachine
