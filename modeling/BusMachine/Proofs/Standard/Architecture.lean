import BusMachine.Proofs.Architecture.Build

/-!
The standard machine in closed form. Its wiring, its instruction set and its sequencer do not depend
on the parameters, and a word size of 46 is the least that has a word for every opcode.
-/

namespace BusMachine.Standard

def wiring : Wiring where
  size := 14
  slots :=
    let store : Lines := { latch := true, drive := true }
    let clearable : Lines := { store with reset := true }
    #v[⟨"instruction", .register, store, none⟩,
      ⟨"tick", .register, { latch := true, incr := true, reset := true }, none⟩,
      ⟨"pc", .register, .full, none⟩,
      ⟨"address", .register, store, none⟩,
      ⟨"a", .register, clearable, none⟩,
      ⟨"b", .register, clearable, none⟩,
      ⟨"x", .register, clearable, none⟩,
      ⟨"y", .register, clearable, none⟩,
      ⟨"stack_ptr", .register, clearable, none⟩,
      ⟨"io_target", .register, store, none⟩,
      ⟨"memory", .memory (.single 3), store, none⟩,
      ⟨"io", .port (.single 9), store, none⟩,
      ⟨"sum", .adder 4 5, { drive := true }, none⟩,
      ⟨"sub", .subtractor 4 5, { drive := true }, none⟩]
  names := [("sub", .single 13), ("sum", .single 12), ("io", .single 11), ("memory", .single 10),
    ("io_target", .single 9), ("stack_ptr", .single 8), ("y", .single 7), ("x", .single 6),
    ("b", .single 5), ("a", .single 4), ("address", .single 3), ("pc", .single 2),
    ("tick", .single 1), ("instruction", .single 0)]

theorem ofComponents_eq : Wiring.ofComponents standardComponents = .ok wiring := by
  rfl

def instructionSet : InstructionSet :=
  ⟨.ofList (standardInstructions.map fun i => (i.opcode, i))⟩

set_option maxRecDepth 4000 in
theorem ofList_eq : InstructionSet.ofList standardInstructions = .ok instructionSet := by
  rfl

/-- The names and opcodes of the standard instructions, evaluated in one go. -/
theorem instructionSet_evaluated :
    (∀ i ∈ standardInstructions, instructionSet.named? i.name = some i) ∧
    (∀ i ∈ instructionSet.toList, i ∈ standardInstructions ∧ i.opcode < 46) ∧
    ∃ i ∈ instructionSet.toList, i.opcode = 45 := by
  decide +kernel

theorem named?_eq_some {i : Instruction} (h : i ∈ standardInstructions) :
    instructionSet.named? i.name = some i :=
  instructionSet_evaluated.1 i h

theorem mem_standardInstructions : ∀ i ∈ instructionSet.toList, i ∈ standardInstructions :=
  fun i hi => (instructionSet_evaluated.2.1 i hi).1

theorem opcode_lt_iff {wordSize : Nat} :
    (∀ i ∈ instructionSet.toList, i.opcode < wordSize) ↔ 46 ≤ wordSize := by
  obtain ⟨-, below, i, hi, hopcode⟩ := instructionSet_evaluated
  constructor
  · intro h
    have hlt := h i hi
    rw [hopcode] at hlt
    exact hlt
  · intro h i hi
    exact Nat.lt_of_lt_of_le (below i hi).2 h

theorem ofMicrocode_isSome :
    (Sequencer.ofMicrocode wiring instructionSet standardMicrocode).toOption.isSome = true := by
  decide +kernel

@[irreducible] def sequencer : Sequencer wiring :=
  (Sequencer.ofMicrocode wiring instructionSet standardMicrocode).toOption.get ofMicrocode_isSome

theorem ofMicrocode_eq :
    Sequencer.ofMicrocode wiring instructionSet standardMicrocode = .ok sequencer := by
  have some_eq : some sequencer =
      (Sequencer.ofMicrocode wiring instructionSet standardMicrocode).toOption := by
    unfold sequencer
    exact Option.some_get ofMicrocode_isSome
  cases hq : Sequencer.ofMicrocode wiring instructionSet standardMicrocode with
  | error fault =>
    rw [hq] at some_eq
    cases some_eq
  | ok q =>
    rw [hq] at some_eq
    exact congrArg Except.ok (Option.some.inj some_eq).symm

abbrev circuit (params : Parameters) (valid : params.Valid) : Circuit := ⟨params, valid, wiring⟩

def architecture (params : Parameters) (valid : params.Valid) : Architecture where
  toCircuit := circuit params valid
  instructions := instructionSet
  sequencer := sequencer

theorem standard_ok_iff {params : Parameters} {arch : Architecture} :
    Architecture.standard params = .ok arch ↔
      ∃ valid : params.Valid, 46 ≤ params.wordSize ∧ arch = architecture params valid := by
  unfold Architecture.standard
  rw [Architecture.build_ok_iff]
  constructor
  · rintro ⟨rfl, hwiring, hset, hopcodes, hq⟩
    obtain ⟨⟨params, valid, w⟩, set, q⟩ := arch
    obtain rfl : wiring = w := Except.ok.inj (ofComponents_eq.symm.trans hwiring)
    obtain rfl : instructionSet = set := Except.ok.inj (ofList_eq.symm.trans hset)
    obtain rfl : sequencer = q := Except.ok.inj (ofMicrocode_eq.symm.trans hq)
    exact ⟨valid, opcode_lt_iff.mp hopcodes, rfl⟩
  · rintro ⟨valid, hsize, rfl⟩
    exact ⟨rfl, ofComponents_eq, ofList_eq, opcode_lt_iff.mpr hsize, ofMicrocode_eq⟩

theorem default_valid : Parameters.Valid {} :=
  ⟨by decide, by decide, by decide, by decide, by decide, by decide⟩

def defaultArchitecture : Architecture := architecture {} default_valid

theorem standard_default : Architecture.standard {} = .ok defaultArchitecture :=
  standard_ok_iff.mpr ⟨default_valid, by decide, rfl⟩

end BusMachine.Standard
