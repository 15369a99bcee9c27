import BusMachine.Device.Queue
import BusMachine.Proofs.Sequencer.Cycles
import BusMachine.Proofs.Standard.Cycle

/-!
The standard microcode carries out the standard instructions: from the first step of an instruction
on, cycle after cycle performs its transfers, and when the first step is due again the state has
changed by the meaning of the instruction and the next one is loaded.
-/

namespace BusMachine

open Datapath

theorem Sequencer.ofDatapath_cycles_beginCycle {c : Circuit} {δ : Type} [Device δ]
    (q : Sequencer c.wiring) (count : Nat) (d : Datapath c δ) :
    Standard.State.ofDatapath (q.cycles count d.beginCycle) =
      Standard.State.ofDatapath (q.cycles count d) := by
  cases count with
  | zero => rfl
  | succ count => rw [cycles_succ, cycles_succ, cycle_cycles_beginCycle]

namespace Standard

def asserts (actions : List (Action wiring.size)) : Asserted wiring.size :=
  (actions ++ [Action.line tickSlot .incr]).foldl Asserted.and {}

def Meaning.steps (meaning : Meaning) (flags : Flags) : List Transfer :=
  meaning.transfers flags ++ [loadInstruction]

/-- The steps of a routine assert what the transfers of its instruction ask for. -/
def agrees (named : NamedRoutine) (flags : Flags) : Bool :=
  match meanings.lookup named.instruction, named.program.mapM (Sequencer.resolveStep wiring) with
  | some meaning, .ok steps => steps.map asserts == (meaning.steps flags).map Transfer.asserted
  | _, _ => false

theorem agrees_of_holds : ∀ named ∈ standardMicrocode, ∀ flags ∈ Flags.all,
    named.condition.holds flags = true → agrees named flags = true := by
  decide +kernel

theorem exists_routine : ∀ i ∈ standardInstructions, ∀ flags ∈ Flags.all,
    ∃ named ∈ standardMicrocode, named.instruction = i.name ∧
      named.condition.holds flags = true := by
  decide +kernel

theorem sequencer_tick : sequencer.tick = tickSlot := by
  have htick := (Sequencer.ofMicrocode_roles ofMicrocode_eq).1
  exact Except.ok.inj (htick.symm.trans rfl)

theorem sequencer_instruction : sequencer.instruction = instructionSlot := by
  have hinstruction := (Sequencer.ofMicrocode_roles ofMicrocode_eq).2
  exact Except.ok.inj (hinstruction.symm.trans rfl)

/-- The sequencer carries out an instruction by the steps of a meaning. -/
structure CarriesOut (i : Instruction) (meaning : Meaning) : Prop where
  meaning_eq : meanings.lookup i.name = some meaning
  count_eq : ∀ flags, sequencer.stepCount? i.opcode flags = some (meaning.steps flags).length
  asserts_eq : ∀ flags (k : Nat) (t : Transfer), (meaning.steps flags)[k]? = some t →
    asserts (sequencer.actions i.opcode k flags) = t.asserted

theorem exists_carriesOut {i : Instruction} (hi : i ∈ standardInstructions) :
    ∃ meaning, CarriesOut i meaning := by
  -- the routine may depend on the flags, but its meaning is found under the name alone
  have selected : ∀ flags, ∃ meaning routine, meanings.lookup i.name = some meaning ∧
      sequencer.select? i.opcode flags = some routine ∧
        routine.steps.map asserts = (meaning.steps flags).map Transfer.asserted := by
    intro flags
    obtain ⟨named, hnamed, hname, hholds⟩ := exists_routine i hi flags (Flags.mem_all flags)
    have hset : instructionSet.named? named.instruction = some i := hname ▸ named?_eq_some hi
    obtain ⟨routine, hroutine, hres⟩ := Sequencer.exists_select? ofMicrocode_eq hnamed hset hholds
    have hsteps := mapM_eq_ok_iff.mpr hres.steps
    have agreed := agrees_of_holds named hnamed flags (Flags.mem_all flags) hholds
    unfold agrees at agreed
    rw [hsteps] at agreed
    split at agreed
    · rename_i meaning steps hmeaning hsame
      cases hsame
      exact ⟨meaning, routine, hname ▸ hmeaning, hroutine, eq_of_beq agreed⟩
    · cases agreed
  obtain ⟨meaning, -, hmeaning, -⟩ := selected {}
  have routineOf : ∀ flags, ∃ routine, sequencer.select? i.opcode flags = some routine ∧
      routine.steps.map asserts = (meaning.steps flags).map Transfer.asserted := by
    intro flags
    obtain ⟨other, routine, hother, hroutine, hsteps⟩ := selected flags
    rw [hmeaning] at hother
    cases hother
    exact ⟨routine, hroutine, hsteps⟩
  refine ⟨meaning, hmeaning, fun flags => ?_, fun flags k t ht => ?_⟩
  · obtain ⟨routine, hroutine, hsteps⟩ := routineOf flags
    have hlength := congrArg List.length hsteps
    rw [List.length_map, List.length_map] at hlength
    rw [Sequencer.stepCount?_eq, hroutine, Option.map_some, hlength]
  · obtain ⟨routine, hroutine, hsteps⟩ := routineOf flags
    have hget : (routine.steps.map asserts)[k]? = some t.asserted := by
      rw [hsteps, List.getElem?_map, ht, Option.map_some]
    rw [List.getElem?_map, Option.map_eq_some_iff] at hget
    obtain ⟨actions, hactions, hasserts⟩ := hget
    rw [Sequencer.actions_eq_getD ofMicrocode_eq hroutine, List.getD_eq_getElem?_getD, hactions,
      Option.getD_some, hasserts]

section Steps

variable (meaning : Meaning) (flags : Flags)

attribute [local simp] Meaning.transfers nextWord atPc toOperand moveStack atStackOffset

theorem length_transfers_le : (meaning.transfers flags).length ≤ 12 := by
  cases meaning with
  | branch condition => by_cases h : condition.holds flags = true <;> simp [h]
  | _ => simp

theorem transfers_inner : ∀ t ∈ meaning.transfers flags,
    t.restart = false ∧ t.target ≠ .instruction := by
  cases meaning with
  | branch condition => by_cases h : condition.holds flags = true <;> simp [h]
  | _ => simp

theorem transfers_stable :
    (∀ t ∈ meaning.transfers flags, ∀ op, t.source ≠ .result op) ∨
      ∀ other, meaning.transfers other = meaning.transfers flags := by
  cases meaning with
  | branch condition =>
    left
    by_cases h : condition.holds flags = true <;> simp [h]
  | _ =>
    right
    intro other
    rfl

theorem halt_of_ne (h : meaning ≠ .halt) : ∀ t ∈ meaning.steps flags, t.halt = false := by
  unfold Meaning.steps
  cases meaning with
  | halt => exact absurd rfl h
  | branch condition =>
    by_cases h : condition.holds flags = true <;> simp [loadInstruction, h]
  | _ => simp [loadInstruction]

theorem steps_halt {k : Nat} {t : Transfer} (ht : (meaning.steps flags)[k]? = some t) :
    t.halt = decide (meaning = .halt ∧ k = 0) := by
  by_cases h : meaning = .halt
  · subst h
    cases k with
    | zero =>
      cases ht
      rfl
    | succ k =>
      have rest : ∀ t ∈ nextWord ++ [loadInstruction], t.halt = false := by decide
      rw [rest t (List.mem_of_getElem? ht)]
      simp
  · rw [halt_of_ne meaning flags h t (List.mem_of_getElem? ht)]
    simp [h]

end Steps

variable {params : Parameters} {valid : params.Valid} {δ : Type} [Device δ]

omit [Device δ] in
theorem assertAll_actions (d : Datapath (circuit params valid) δ)
    (actions : List (Action wiring.size)) :
    (d.beginCycle.assertAll actions).assert (.line tickSlot .incr) =
      d.withAsserted (asserts actions) := by
  have all := withAsserted_assertAll d (actions ++ [.line tickSlot .incr]) {}
  unfold assertAll at all
  rw [List.foldl_append] at all
  exact all

omit [Device δ] in
theorem ofDatapath_withAsserted (d : Datapath (circuit params valid) δ)
    (asserted : Asserted wiring.size) :
    State.ofDatapath (d.withAsserted asserted) = State.ofDatapath d := by
  rw [ofDatapath_eq, ofDatapath_eq]
  rfl

theorem cycle_transfer {d : Datapath (circuit params valid) δ} (h : d.Sound) {t : Transfer}
    (hasserts : asserts (sequencer.actions d.values[instructionSlot] d.values[tickSlot] d.flags) =
      t.asserted) :
    (sequencer.cycle d).1 = ⟨d.values[instructionSlot], d.values[tickSlot], t.halt⟩ ∧
      State.ofDatapath (sequencer.cycle d).2 =
        t.perform params.wordSize (State.ofDatapath d) := by
  have asserted := (steps_asserted (c := circuit params valid) ofMicrocode_eq d).sound h
  unfold Sequencer.cycle
  simp only [sequencer_tick, sequencer_instruction] at asserted ⊢
  rw [assertAll_actions, hasserts] at asserted ⊢
  have ended := ofDatapath_endCycle asserted (t := t) rfl rfl
  rw [ofDatapath_withAsserted] at ended
  refine ⟨?_, ended⟩
  rw [halting_endCycle]
  rfl

/-- A datapath `d'` that `k` steps of the instruction which `d` begins have led to. -/
structure Midway (i : Instruction) (meaning : Meaning) (d d' : Datapath (circuit params valid) δ)
    (k : Nat) : Prop where
  sound : d'.Sound
  state : State.ofDatapath d' = ((meaning.transfers d.flags).take k).foldl
    (Transfer.perform params.wordSize) (State.ofDatapath d)
  tick : (State.ofDatapath d').tick = k
  instruction : (State.ofDatapath d').instruction = i.opcode
  transfers : meaning.transfers d'.flags = meaning.transfers d.flags

section Run

variable {i : Instruction} {meaning : Meaning} (hi : CarriesOut i meaning)
  {d d' : Datapath (circuit params valid) δ} {k : Nat}
include hi

theorem Midway.cycle (h : Midway i meaning d d' k) {t : Transfer}
    (ht : (meaning.steps d.flags)[k]? = some t) :
    (sequencer.cycle d').1 = ⟨i.opcode, k, t.halt⟩ ∧
      State.ofDatapath (sequencer.cycle d').2 =
        t.perform params.wordSize (State.ofDatapath d') := by
  have hsteps : (meaning.steps d'.flags)[k]? = some t := by
    unfold Meaning.steps at ht ⊢
    rw [h.transfers, ht]
  have carried := hi.asserts_eq d'.flags k t hsteps
  have hopcode : d'.values[instructionSlot] = i.opcode := h.instruction
  have hstep : d'.values[tickSlot] = k := h.tick
  have performed := cycle_transfer h.sound (t := t) (by rw [hopcode, hstep, carried])
  rw [hopcode, hstep] at performed
  exact performed

theorem Midway.next (h : Midway i meaning d d' k) (hsize : 46 ≤ params.wordSize)
    (hk : k < (meaning.transfers d.flags).length) :
    Midway i meaning d (sequencer.cycle d').2 (k + 1) := by
  have ht := List.getElem?_eq_getElem hk
  generalize (meaning.transfers d.flags)[k] = t at ht
  have hmem := List.mem_of_getElem? ht
  have ⟨hrestart, htarget⟩ := transfers_inner meaning d.flags t hmem
  have hsteps : (meaning.steps d.flags)[k]? = some t := by
    unfold Meaning.steps
    rw [List.getElem?_append_left hk, ht]
  have ⟨_, hnext⟩ := h.cycle hi hsteps
  constructor
  · exact (steps_cycle (c := circuit params valid) ofMicrocode_eq d').sound h.sound
  · rw [hnext, h.state, List.take_add_one, ht, List.foldl_append]
    rfl
  · have hlength := length_transfers_le meaning d.flags
    have hbound : k + 1 < params.wordSize := by omega
    rw [hnext, Transfer.perform_tick hrestart, h.tick, Nat.mod_eq_of_lt hbound]
  · rw [hnext, Transfer.perform_instruction htarget, h.instruction]
  · -- either no step sets the flags, or the steps are the same in every flag state
    cases transfers_stable meaning d.flags with
    | inl hkeep =>
      have hflags := congrArg State.flags hnext
      rw [Transfer.perform_flags (hkeep t hmem), State.flags_ofDatapath,
        State.flags_ofDatapath] at hflags
      rw [hflags, h.transfers]
    | inr hsame => exact hsame _

theorem midway_cycles (hsize : 46 ≤ params.wordSize) (h : d.Sound)
    (htick : (State.ofDatapath d).tick = 0)
    (hinstruction : (State.ofDatapath d).instruction = i.opcode)
    (hk : k ≤ (meaning.transfers d.flags).length) :
    Midway i meaning d (sequencer.cycles k d) k := by
  induction k with
  | zero => exact ⟨h, rfl, htick, hinstruction, rfl⟩
  | succ k ih =>
    have before := ih (Nat.le_of_succ_le hk)
    rw [Sequencer.cycles_succ]
    exact before.next hi hsize hk

theorem cycles_steps (hsize : 46 ≤ params.wordSize) (h : d.Sound)
    (htick : (State.ofDatapath d).tick = 0)
    (hinstruction : (State.ofDatapath d).instruction = i.opcode) :
    (∀ k < (meaning.steps d.flags).length,
      (State.ofDatapath (sequencer.cycles k d)).tick = k ∧
        (sequencer.cycle (sequencer.cycles k d)).1 =
          ⟨i.opcode, k, decide (meaning = .halt ∧ k = 0)⟩) ∧
    State.ofDatapath (sequencer.cycles (meaning.steps d.flags).length d) =
      (meaning.perform params.wordSize (State.ofDatapath d)).fetch := by
  have hlength : (meaning.steps d.flags).length = (meaning.transfers d.flags).length + 1 :=
    List.length_append
  have midway := fun k => midway_cycles (k := k) hi hsize h htick hinstruction
  constructor
  · intro k hk
    have ht := List.getElem?_eq_getElem hk
    have reached := midway k (by omega)
    have ⟨hreport, _⟩ := reached.cycle hi ht
    rw [hreport, steps_halt meaning d.flags ht]
    exact ⟨reached.tick, rfl⟩
  · have hlast : (meaning.steps d.flags)[(meaning.transfers d.flags).length]? =
        some loadInstruction := by
      unfold Meaning.steps
      rw [List.getElem?_append_right (Nat.le_refl _), Nat.sub_self]
      rfl
    have last := midway _ (Nat.le_refl _)
    have ⟨_, hnext⟩ := last.cycle hi hlast
    have all := foldl_transfers params.wordSize (State.ofDatapath d) meaning
    rw [List.foldl_append] at all
    rw [hlength, Sequencer.cycles_succ, hnext, last.state, List.take_length]
    exact all

end Run

theorem cycles_words {i : Instruction} (hi : i ∈ standardInstructions)
    (hsize : 46 ≤ params.wordSize) {d : Datapath (circuit params valid) δ}
    (hvalues : ∀ j : Fin wiring.size, d.values[j] < params.wordSize)
    (hmemory : ∀ j : Fin params.memorySize, d.memory[j] < params.wordSize)
    (htick : (State.ofDatapath d).tick = 0)
    (hinstruction : (State.ofDatapath d).instruction = i.opcode) :
    ∃ meaning count, meanings.lookup i.name = some meaning ∧
      sequencer.stepCount? i.opcode d.flags = some count ∧ 0 < count ∧
      (∀ k < count, (State.ofDatapath (sequencer.cycles k d)).tick = k ∧
        (sequencer.cycle (sequencer.cycles k d)).1 =
          ⟨i.opcode, k, decide (meaning = .halt ∧ k = 0)⟩) ∧
      State.ofDatapath (sequencer.cycles count d) =
        (meaning.perform params.wordSize (State.ofDatapath d)).fetch := by
  obtain ⟨meaning, carried⟩ := exists_carriesOut hi
  have sound : d.beginCycle.Sound := sound_beginCycle hvalues hmemory
  have ⟨reports, last⟩ := cycles_steps carried hsize sound htick hinstruction
  have hpos : 0 < (meaning.steps d.flags).length := by
    unfold Meaning.steps
    simp
  refine ⟨meaning, _, carried.meaning_eq, carried.count_eq d.flags, hpos, fun k hk => ?_, ?_⟩
  · have reached := reports k hk
    rw [Sequencer.ofDatapath_cycles_beginCycle, Sequencer.cycle_cycles_beginCycle] at reached
    exact reached
  · rw [Sequencer.ofDatapath_cycles_beginCycle] at last
    exact last

/-- From the first step of a standard instruction on, as many cycles as its routine has steps
perform one step each, and then the state has changed by the meaning of the instruction, with the
next instruction loaded. -/
theorem cycles_eq_perform {arch : Architecture} (h : Architecture.standard params = .ok arch)
    {d : Datapath arch.toCircuit δ} (hvalues : ∀ j : Fin arch.size, d.values[j] < params.wordSize)
    (hmemory : ∀ j : Fin arch.memorySize, d.memory[j] < params.wordSize)
    {i : Instruction} (hi : i ∈ standardInstructions) (htick : (State.ofDatapath d).tick = 0)
    (hinstruction : (State.ofDatapath d).instruction = i.opcode) :
    ∃ meaning count, meanings.lookup i.name = some meaning ∧
      arch.sequencer.stepCount? i.opcode d.flags = some count ∧ 0 < count ∧
      (∀ k < count, (State.ofDatapath (arch.sequencer.cycles k d)).tick = k ∧
        (arch.sequencer.cycle (arch.sequencer.cycles k d)).1 =
          ⟨i.opcode, k, decide (meaning = .halt ∧ k = 0)⟩) ∧
      State.ofDatapath (arch.sequencer.cycles count d) =
        (meaning.perform params.wordSize (State.ofDatapath d)).fetch := by
  obtain ⟨valid, hsize, rfl⟩ := standard_ok_iff.mp h
  exact cycles_words hi hsize hvalues hmemory htick hinstruction

def calling : Datapath (circuit {} default_valid) QueueDevice :=
  { (initial : Datapath _ QueueDevice) with
    values := (Vector.replicate wiring.size 0).set instructionSlot 44 }

theorem cycles_eq_perform_call :
    ∃ meaning count, meanings.lookup "call" = some meaning ∧
      sequencer.stepCount? 44 calling.flags = some count ∧
      State.ofDatapath (sequencer.cycles count calling) =
        (meaning.perform 256 (State.ofDatapath calling)).fetch := by
  have word : 44 < (circuit {} default_valid).wordSize := by decide
  have sound : calling.Sound := sound_initial.setValue word instructionSlot
  have member : (⟨"call", 44, [.address], "pushes the return point, jumps to $func"⟩ :
    Instruction) ∈ standardInstructions := by decide
  obtain ⟨meaning, count, hmeaning, hcount, -, -, hstate⟩ :=
    cycles_eq_perform standard_default (d := calling) sound.values_lt sound.memory_lt member
      (by rfl) (by rfl)
  exact ⟨meaning, count, hmeaning, hcount, hstate⟩

end Standard

end BusMachine
