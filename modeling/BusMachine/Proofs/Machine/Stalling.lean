import BusMachine.Device.Queue
import BusMachine.Proofs.Architecture.Build
import BusMachine.Proofs.Architecture.InstructionSet
import BusMachine.Proofs.Datapath.Counting
import BusMachine.Proofs.Machine.Drive
import BusMachine.Proofs.Standard.Architecture

/-!
Machines with an opcode that no instruction has. Such an opcode asserts nothing, so a tick counts
the step and that is all: the opcode stays, and the machine stalls for good.
-/

namespace BusMachine

namespace Architecture

theorem tick_ne_lowName (c : Component) : "tick" ≠ c.lowName := by
  intro h
  have last := congrArg (fun s : String => s.toList.getLast?) h
  simp [Component.lowName] at last

variable {params : Parameters} {components : List Component} {instructions : List Instruction}
  {microcode : List NamedRoutine} {arch : Architecture}

namespace Describes

variable (h : Describes params components instructions microcode arch)
include h

theorem place?_tick : arch.wiring.place? "tick" = some (.single arch.sequencer.tick) :=
  Sequencer.requireRole_eq_ok_iff.mp (Sequencer.ofMicrocode_roles h.sequencer).1

theorem place?_instruction :
    arch.wiring.place? "instruction" = some (.single arch.sequencer.instruction) :=
  Sequencer.requireRole_eq_ok_iff.mp (Sequencer.ofMicrocode_roles h.sequencer).2

theorem counts_tick : Place.Counts arch.wiring (.single arch.sequencer.tick) := by
  obtain ⟨-, carryInto | ⟨c, -, hname⟩⟩ := Wiring.slot_of_place? h.wiring h.place?_tick
  · exact .single carryInto
  · exact absurd hname (tick_ne_lowName c)

theorem instruction_ne_tick : arch.sequencer.instruction ≠ arch.sequencer.tick := by
  intro same
  have tick := (Wiring.slot_of_place? h.wiring h.place?_tick).1
  have instruction := (Wiring.slot_of_place? h.wiring h.place?_instruction).1
  rw [same, tick] at instruction
  exact absurd instruction (by decide)

theorem actions_eq_nil {opcode : Word} (hopcode : arch.instructions.decode? opcode = none)
    (step : Word) (flags : Flags) : arch.sequencer.actions opcode step flags = [] := by
  obtain ⟨routines, checked⟩ := Sequencer.ofMicrocode_checked h.sequencer
  unfold Sequencer.actions
  cases hown : arch.sequencer.routines.get? opcode with
  | none => rfl
  | some own =>
    obtain ⟨⟨i, hi, rfl⟩, -⟩ := (checked.own opcode own).mp hown
    rw [InstructionSet.decode?_of_mem h.instructions hi] at hopcode
    cases hopcode

end Describes

end Architecture

namespace Datapath

variable {c : Circuit} {δ : Type} [Device δ]

theorem traffic_eq_nil {d : Datapath c δ}
    (hdrive : ∀ i, (d.active.get i).drive = false) (hlatch : ∀ i, (d.active.get i).latch = false) :
    d.traffic = [] := by
  let Quiet (s : Datapath c δ × List PortAccess) : Prop := s.1.active = d.active ∧ s.2 = []
  have driven : Quiet ((List.finRange c.size).foldl driveNoting (d, [])) := by
    refine List.foldlRecOn _ _ ⟨rfl, rfl⟩ fun s ⟨active, quiet⟩ i _ => ?_
    rw [driveNoting_of_off (by rw [active]; exact hdrive i)]
    exact ⟨(active_count s.1 i).trans active, quiet⟩
  have latched (word : Word) : Quiet ((List.finRange c.size).foldl (latchNoting word)
      ((List.finRange c.size).foldl driveNoting (d, []))) := by
    refine List.foldlRecOn _ _ driven fun s ⟨active, quiet⟩ i _ => ?_
    rw [latchNoting_of_off (by rw [active]; exact hlatch i)]
    exact ⟨active, quiet⟩
  exact (latched _).2

theorem traffic_assert_incr (d : Datapath c δ) (i : Fin c.size) :
    (d.beginCycle.assert (.line i .incr)).traffic = [] := by
  refine traffic_eq_nil (fun j => ?_) fun j => ?_
  all_goals
    rw [active_assert_line]
    split <;> rfl

theorem bus_endCycle_assert_incr (d : Datapath c δ) (i : Fin c.size) :
    (d.beginCycle.assert (.line i .incr)).endCycle.bus = 0 := by
  rw [endCycle_assert_incr, bus_increment]
  rfl

end Datapath

namespace Machine

variable {params : Parameters} {components : List Component} {instructions : List Instruction}
  {microcode : List NamedRoutine} {arch : Architecture} {δ : Type} [Device δ]

open Datapath

/-- Every word is in range, and no instruction has the opcode. -/
structure Stalled (m : Machine arch δ) : Prop where
  words : ∀ i, m.datapath.values.get i < arch.wordSize
  unknown : arch.instructions.decode? (m.datapath.values.get arch.sequencer.instruction) = none

section Ticks

variable (h : Architecture.Describes params components instructions microcode arch)
  {m : Machine arch δ} (hm : m.Stalled)
include h hm

omit [Device δ] in
theorem asserted_of_stalled : arch.sequencer.asserted m.datapath =
    m.datapath.beginCycle.assert (.line arch.sequencer.tick .incr) := by
  unfold Sequencer.asserted
  rw [h.actions_eq_nil hm.unknown]
  rfl

theorem datapath_tick_of_stalled : m.tick.2.datapath =
    (m.datapath.beginCycle.assert (.line arch.sequencer.tick .incr)).endCycle :=
  congrArg endCycle (asserted_of_stalled h hm)

theorem observe_of_stalled : m.observe =
    { report := { opcode := m.datapath.values.get arch.sequencer.instruction
                  step := m.step
                  halted := false }
      bus := 0
      accesses := [] } := by
  have asserted := asserted_of_stalled h hm
  have halted : m.tick.1.halted = false := by
    change (arch.sequencer.asserted m.datapath).endCycle.halting = false
    rw [asserted, halting_endCycle]
    rfl
  have bus : m.tick.2.datapath.bus = 0 := by
    rw [datapath_tick_of_stalled h hm, bus_endCycle_assert_incr]
  unfold observe
  rw [bus, asserted, traffic_assert_incr, ← halted]
  rfl

theorem halted_of_stalled : m.tick.1.halted = false :=
  congrArg (·.report.halted) (observe_of_stalled h hm)

theorem countedUp_tick :
    CountedUp (.single arch.sequencer.tick) 1 m.datapath m.tick.2.datapath := by
  rw [datapath_tick_of_stalled h hm]
  exact countedUp_endCycle h.counts_tick hm.words

theorem Stalled.tick : m.tick.2.Stalled := by
  have counted := countedUp_tick h hm
  refine ⟨counted.words, ?_⟩
  rw [counted.others _ (by simpa [Place.slots] using h.instruction_ne_tick)]
  exact hm.unknown

end Ticks

/-- A machine on which `n` ticks have counted the steps and changed nothing else. -/
structure StoodStill (n : Nat) (m m' : Machine arch δ) : Prop where
  counted : CountedUp (.single arch.sequencer.tick) n m.datapath m'.datapath
  clock : m'.clock = m.clock
  ticks : m'.ticks = m.ticks + n

section Runs

variable (h : Architecture.Describes params components instructions microcode arch)
  {m : Machine arch δ} (hm : m.Stalled)
include h hm

theorem stalled_after (n : Nat) : (m.after n).Stalled := by
  induction n with
  | zero => exact hm
  | succ n ih =>
    rw [after_succ_eq_tick]
    exact ih.tick h

theorem stoodStill_after (n : Nat) : StoodStill n m (m.after n) := by
  induction n with
  | zero => exact ⟨.zero hm.words _, rfl, rfl⟩
  | succ n ih =>
    have stalled := stalled_after h hm n
    rw [after_succ_eq_tick]
    refine ⟨ih.counted.add (countedUp_tick h stalled), ?_, congrArg (· + 1) ih.ticks⟩
    rw [clock_tick, halted_of_stalled h stalled]
    exact ih.clock

theorem step_after (n : Nat) : (m.after n).step = (m.step + n) % arch.wordSize :=
  (stoodStill_after h hm n).counted.value

theorem runToHalt_of_stalled (n : Nat) : m.runToHalt n = (.budgetExhausted, m.after n) := by
  induction n generalizing m with
  | zero => rfl
  | succ n ih =>
    rw [runToHalt_succ, halted_of_stalled h hm, if_neg Bool.false_ne_true, ih (hm.tick h)]
    rfl

theorem finishInstruction_go_of_stalled (n done : Nat) : finishInstruction.go n done m =
    (done + min n (arch.wordSize - m.step), m.after (min n (arch.wordSize - m.step))) := by
  induction n generalizing done m with
  | zero =>
    rw [Nat.zero_min]
    rfl
  | succ n ih =>
    obtain ⟨t, ht⟩ : ∃ t : Nat, m.step = t := ⟨m.step, rfl⟩
    have inside : t < arch.wordSize := ht ▸ hm.words arch.sequencer.tick
    have next : m.tick.2.step = (t + 1) % arch.wordSize := ht ▸ step_after h hm 1
    rw [finishInstruction.go, ht]
    dsimp only
    rw [halted_of_stalled h hm, Bool.false_or]
    by_cases wraps : t + 1 = arch.wordSize
    · have one : min (n + 1) (arch.wordSize - t) = 1 := by omega
      rw [next, wraps, Nat.mod_self, one]
      rfl
    · have more : min (n + 1) (arch.wordSize - t) = min n (arch.wordSize - (t + 1)) + 1 := by omega
      rw [Nat.mod_eq_of_lt (by omega)] at next
      rw [next, if_neg (by simp), ih (hm.tick h), next, more, after_succ, Nat.add_right_comm,
        Nat.add_assoc]

end Runs

/-- An opcode that no instruction has stalls the machine. Ticks count the step, modulo the word
size, and change nothing else; none of them is a halt, puts anything on the bus or uses a port. So
no run ends before its budget, and the ticks up to the next instruction go on until the counter
wraps around. -/
theorem stalls_in_place
    (h : Architecture.build params components instructions microcode = .ok arch)
    {m : Machine arch δ} (hvalues : ∀ i, m.datapath.values.get i < arch.wordSize)
    {opcode step : Word} (hinstruction : m.datapath.valueOf "instruction" = .ok opcode)
    (hopcode : arch.instructions.decode? opcode = none)
    (htick : m.datapath.valueOf "tick" = .ok step) :
    (∀ n, StoodStill n m (m.after n) ∧
      (m.after n).datapath.valueOf "tick" = .ok ((step + n) % arch.wordSize) ∧
      (m.after n).observe =
        { report := { opcode, step := (step + n) % arch.wordSize, halted := false }
          bus := 0
          accesses := [] } ∧
      (m.after (n + 1)).datapath.bus = 0) ∧
    (∀ n, m.runToHalt n = (.budgetExhausted, m.after n)) ∧
    ∀ n, m.finishInstruction n =
      (min n (arch.wordSize - step), m.after (min n (arch.wordSize - step))) := by
  have described := Architecture.build_ok_iff.mp h
  have tick (m : Machine arch δ) : m.datapath.valueOf "tick" = .ok m.step := by
    unfold valueOf
    rw [described.place?_tick]
    rfl
  obtain rfl : m.step = step := Except.ok.inj ((tick m).symm.trans htick)
  obtain rfl : m.datapath.values.get arch.sequencer.instruction = opcode := by
    unfold valueOf at hinstruction
    rw [described.place?_instruction] at hinstruction
    exact Except.ok.inj hinstruction
  have hm : m.Stalled := ⟨hvalues, hopcode⟩
  refine ⟨fun n => ?_, runToHalt_of_stalled described hm, fun n => ?_⟩
  · have still := stoodStill_after described hm n
    have stalled := stalled_after described hm n
    have next := step_after described hm n
    have seen := observe_of_stalled described stalled
    have kept := still.counted.others arch.sequencer.instruction
      (by simpa [Place.slots] using described.instruction_ne_tick)
    refine ⟨still, by rw [tick, next], by rw [seen, kept, next], ?_⟩
    rw [after_succ_eq_tick]
    exact congrArg Sequencer.Observation.bus seen
  · have run := finishInstruction_go_of_stalled described hm n 0
    rw [Nat.zero_add] at run
    exact run

def stuck : Machine Standard.defaultArchitecture QueueDevice where
  datapath :=
    { initial with
      values := #v[99, 250, 7, 0, 0, 0, 0, 0, 0, 0, 0, 0, 0, 0]
      bus := 300 }
  clock := .new 10.0
  ticks := 0

theorem stalls_in_place_stuck :
    Architecture.standard {} = .ok Standard.defaultArchitecture ∧
      (stuck.after 10).datapath.valueOf "tick" = .ok 4 ∧ (stuck.after 10).datapath.bus = 0 ∧
      (stuck.runToHalt 10).1 = .budgetExhausted ∧ (stuck.finishInstruction 10).1 = 6 := by
  have words : ∀ i, stuck.datapath.values.get i < 256 := by decide
  have unknown : Standard.defaultArchitecture.instructions.decode? 99 = none := by decide +kernel
  have instruction : stuck.datapath.valueOf "instruction" = .ok 99 := rfl
  have step : stuck.datapath.valueOf "tick" = .ok 250 := rfl
  obtain ⟨ticks, run, finish⟩ :=
    stalls_in_place Standard.standard_default words instruction unknown step
  obtain ⟨-, tick, -, -⟩ := ticks 10
  obtain ⟨-, -, -, bus⟩ := ticks 9
  refine ⟨Standard.standard_default, tick, bus, congrArg Prod.fst (run 10), ?_⟩
  rw [finish]
  show min 10 (256 - 250) = 6
  decide

end Machine

end BusMachine
