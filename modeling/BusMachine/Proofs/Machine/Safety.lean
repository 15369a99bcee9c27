import BusMachine.Device.Queue
import BusMachine.Proofs.Architecture.Build
import BusMachine.Proofs.Datapath.Bus
import BusMachine.Proofs.Machine.Operation
import BusMachine.Proofs.Standard.Architecture

/-!
What holds of a machine whatever is asked of it: words, lines, slots and cells stay within what the
description of the machine allows, in the middle of a cycle as well as between two requests. With
the standard components and microcode every cycle leaves a word on the bus.
-/

namespace BusMachine

/-- Everything that a datapath holds or refers to is within the bounds of its description. -/
structure Datapath.InBounds {c : Circuit} {δ : Type} (params : Parameters)
    (components : List Component) (d : Datapath c δ) : Prop where
  slot_lt : ∀ i : Fin c.size, i.val < Wiring.slotCount components
  value_lt : ∀ i : Fin c.size, d.values.get i < params.wordSize
  active_supported : ∀ (i : Fin c.size) (line : Signal),
    (d.active.get i).contains line = true → (c.wiring.slots.get i).lines.contains line = true
  memory_length : d.memory.toList.length = params.memorySize
  memory_lt : ∀ word ∈ d.memory.toList, word < params.wordSize
  cell_lt : ∀ address : Place c.size, (d.cell address).val < params.memorySize
  valueAt_le : ∀ place : Place c.size, d.valueAt place ≤ 2 ^ 32 - 1
  /-- Neither a sum nor a difference is handed the bus. -/
  latch_kind : ∀ i : Fin c.size, (d.active.get i).latch = true → ∀ lhs rhs : Fin c.size,
    (c.wiring.slots.get i).kind ≠ .adder lhs rhs ∧
      (c.wiring.slots.get i).kind ≠ .subtractor lhs rhs

theorem Datapath.Sound.inBounds {c : Circuit} {δ : Type} {components : List Component}
    (hw : Wiring.ofComponents components = .ok c.wiring) {d : Datapath c δ} (h : d.Sound) :
    d.InBounds c.params components where
  slot_lt i := by
    have hsize : c.size = Wiring.slotCount components := Wiring.ofComponents_size hw
    exact hsize ▸ i.isLt
  value_lt := h.values_lt
  active_supported := h.active_supported
  memory_length := by simp
  memory_lt word hword := by
    obtain ⟨i, hi, rfl⟩ := List.mem_iff_getElem.mp hword
    rw [Vector.length_toList] at hi
    simpa [Vector.get] using h.memory_lt ⟨i, hi⟩
  cell_lt address := (d.cell address).isLt
  valueAt_le := valueAt_le h
  latch_kind i hlatch lhs rhs := by
    have hline := h.active_supported i .latch hlatch
    have hserved := Wiring.ofComponents_served hw i
    constructor
    · intro hkind
      rw [hserved.latch_eq_false (.inl hkind)] at hline
      cases hline
    · intro hkind
      rw [hserved.latch_eq_false (.inr hkind)] at hline
      cases hline

namespace Standard

theorem names_single {w : Wiring} (h : Wiring.ofComponents standardComponents = .ok w) :
    ∀ entry ∈ w.names, ∃ slot, entry.2 = .single slot := by
  obtain rfl := Except.ok.inj (ofComponents_eq.symm.trans h)
  decide

/-- Every step of the standard microcode has at most one source for the bus, and the numbers that it
puts there are words of every machine. -/
theorem microcode_source : ∀ named ∈ standardMicrocode, ∀ step ∈ named.program,
    step.countP NamedAction.isSource ≤ 1 ∧
      step.all (NamedAction.literalBelow 2) = true := by
  decide +kernel

theorem bus_cycle_lt {c : Circuit} (hw : Wiring.ofComponents standardComponents = .ok c.wiring)
    {set : InstructionSet} {q : Sequencer c.wiring}
    (hq : Sequencer.ofMicrocode c.wiring set standardMicrocode = .ok q) {δ : Type} [Device δ]
    {d : Datapath c δ} (h : d.Sound) : (q.cycle d).2.bus < c.wordSize := by
  have htwo : 2 ≤ c.wordSize := c.valid.two_le_wordSize
  obtain hnil | ⟨named, hnamed, step, hstep, hresolve⟩ :=
    Sequencer.actions_resolved hq d.values[q.instruction] d.values[q.tick] d.flags
  · exact Datapath.bus_cycle_lt hq h (by rw [hnil]; simp) (by rw [hnil]; simp)
  · obtain ⟨hsource, hliteral⟩ := microcode_source named hnamed step hstep
    obtain ⟨hcount, hvalues⟩ := Sequencer.resolveStep_single (names_single hw) hresolve
    refine Datapath.bus_cycle_lt hq h (hcount ▸ hsource) fun value hvalue => ?_
    have hbelow := List.all_eq_true.mp hliteral _ (hvalues value hvalue)
    simp only [NamedAction.literalBelow, decide_eq_true_eq] at hbelow
    exact Nat.lt_of_lt_of_le hbelow htwo

end Standard

namespace Machine

/-- Requests of any kind and number take an accepted machine through single changes of its datapath
only, and every state that such changes reach is within bounds. Where the components and the
microcode are the standard ones, a cycle from such a state leaves a word on the bus. -/
theorem run_inBounds {params : Parameters} {components : List Component}
    {instructions : List Instruction} {microcode : List NamedRoutine} {arch : Architecture}
    (h : Architecture.build params components instructions microcode = .ok arch)
    {δ : Type} [Device δ] :
    (∀ operations more : List (Operation δ),
      Datapath.Steps (run arch operations).datapath (run arch (operations ++ more)).datapath) ∧
    ∀ d : Datapath arch.toCircuit δ, Datapath.Steps (run arch []).datapath d →
      d.InBounds params components ∧
      (components = standardComponents → microcode = standardMicrocode →
        (arch.sequencer.cycle d).2.bus < params.wordSize) := by
  obtain ⟨rfl, hwiring, -, -, hq⟩ := Architecture.build_ok_iff.mp h
  refine ⟨fun operations more => ?_, fun d hd => ?_⟩
  · unfold run
    rw [List.foldl_append]
    exact steps_foldl_perform hq more _
  · have hsound : d.Sound := hd.sound Datapath.sound_initial
    refine ⟨hsound.inBounds hwiring, ?_⟩
    rintro rfl rfl
    exact Standard.bus_cycle_lt hwiring hq hsound

def crowding : List (Operation QueueDevice) :=
  [.bind 0 { input := [65535] }, .load #[0, 300], .signal "_" "999", .runToHalt 9]

theorem run_inBounds_default :
    Architecture.standard {} = .ok Standard.defaultArchitecture ∧
      (run Standard.defaultArchitecture crowding).tick.2.datapath.bus < 256 := by
  obtain ⟨steps, reached⟩ := run_inBounds Standard.standard_default (δ := QueueDevice)
  have crowded := steps [] crowding
  rw [List.nil_append] at crowded
  obtain ⟨-, hbus⟩ := reached _ crowded
  exact ⟨Standard.standard_default, hbus rfl rfl⟩

end Machine

end BusMachine
