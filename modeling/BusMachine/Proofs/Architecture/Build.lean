import BusMachine.Architecture
import BusMachine.Proofs.Acceptance

/-!
What an accepted description of a machine consists of: its parts are accepted one by one, and
nothing of the description is changed on the way.
-/

namespace BusMachine

theorem Parameters.validate_ok {p : Parameters} {valid : PLift p.Valid} :
    p.validate = .ok valid := by
  obtain ⟨h⟩ := valid
  unfold validate
  rw [dif_pos ⟨h.two_le_wordSize, h.wordSize_le⟩,
    dif_pos ⟨h.wordSize_le_memorySize, h.memorySize_le⟩,
    dif_pos ⟨h.clockPeriod_isFinite, h.clockPeriod_pos⟩]

theorem Circuit.ofComponents_ok_iff {params : Parameters} {components : List Component}
    {c : Circuit} : Circuit.ofComponents params components = .ok c ↔
      c.params = params ∧ Wiring.ofComponents components = .ok c.wiring := by
  unfold Circuit.ofComponents
  rw [bind_eq_ok_iff]
  constructor
  · rintro ⟨valid, -, h⟩
    obtain ⟨w, hw, h⟩ := bind_eq_ok_iff.mp h
    cases h
    exact ⟨rfl, hw⟩
  · rintro ⟨rfl, hw⟩
    exact ⟨⟨c.valid⟩, Parameters.validate_ok, bind_eq_ok_iff.mpr ⟨c.wiring, hw, rfl⟩⟩

namespace Architecture

theorem checkOpcodes_ok_iff {wordSize : Nat} {set : InstructionSet} :
    checkOpcodes wordSize set = .ok () ↔ ∀ i ∈ set.toList, i.opcode < wordSize := by
  unfold checkOpcodes
  cases hfind : set.toList.find? fun i => decide (wordSize ≤ i.opcode) with
  | some i =>
    have hmem := List.mem_of_find?_eq_some hfind
    have hle : wordSize ≤ i.opcode := by simpa using List.find?_some hfind
    constructor
    · intro h
      cases h
    · intro h
      exact absurd (h i hmem) (Nat.not_lt.mpr hle)
  | none =>
    refine ⟨fun _ i hi => ?_, fun _ => rfl⟩
    simpa using List.find?_eq_none.mp hfind i hi

structure Describes (params : Parameters) (components : List Component)
    (instructions : List Instruction) (microcode : List NamedRoutine) (arch : Architecture) :
    Prop where
  params_eq : arch.params = params
  wiring : Wiring.ofComponents components = .ok arch.wiring
  instructions : InstructionSet.ofList instructions = .ok arch.instructions
  opcode_lt : ∀ i ∈ arch.instructions.toList, i.opcode < params.wordSize
  sequencer : Sequencer.ofMicrocode arch.wiring arch.instructions microcode = .ok arch.sequencer

theorem build_ok_iff {params : Parameters} {components : List Component}
    {instructions : List Instruction} {microcode : List NamedRoutine} {arch : Architecture} :
    build params components instructions microcode = .ok arch ↔
      Describes params components instructions microcode arch := by
  unfold build
  rw [bind_eq_ok_iff]
  constructor
  · rintro ⟨c, hc, h⟩
    obtain ⟨hparams, hwiring⟩ := Circuit.ofComponents_ok_iff.mp hc
    obtain ⟨set, hset, h⟩ := bind_eq_ok_iff.mp h
    obtain ⟨_, hopcodes, h⟩ := bind_eq_ok_iff.mp h
    obtain ⟨q, hq, h⟩ := bind_eq_ok_iff.mp h
    cases h
    exact ⟨hparams, hwiring, hset, checkOpcodes_ok_iff.mp hopcodes, hq⟩
  · intro h
    refine ⟨arch.toCircuit, Circuit.ofComponents_ok_iff.mpr ⟨h.params_eq, h.wiring⟩, ?_⟩
    refine bind_eq_ok_iff.mpr ⟨arch.instructions, h.instructions, ?_⟩
    refine bind_eq_ok_iff.mpr ⟨(), checkOpcodes_ok_iff.mpr h.opcode_lt, ?_⟩
    exact bind_eq_ok_iff.mpr ⟨arch.sequencer, h.sequencer, rfl⟩

end Architecture

end BusMachine
