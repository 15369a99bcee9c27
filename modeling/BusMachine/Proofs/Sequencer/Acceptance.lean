import BusMachine.Proofs.Architecture.InstructionSet
import BusMachine.Proofs.Sequencer.Resolution
import BusMachine.Proofs.Standard.Architecture

/-!
Which microcode is accepted, and what that guarantees. Microcode is accepted exactly if the two
registers of the sequencer are there, all that it names is there, and the conditions of the routines
of every instruction share out the flag states among them. Then every cycle of an instruction
performs a step of one routine alone.
-/

namespace BusMachine

/-- One routine for all flag states, or two that differ in one flag. -/
def Condition.Complete (conditions : List Condition) : Prop :=
  conditions.Perm [.always] ∨ conditions.Perm [.zero, .notZero] ∨
    conditions.Perm [.carry, .notCarry]

namespace Condition

theorem countP_holds (conditions : List Condition) (flags : Flags) :
    conditions.countP (·.holds flags) = conditions.count .always +
      (if flags.zero then conditions.count .zero else conditions.count .notZero) +
      (if flags.carry then conditions.count .carry else conditions.count .notCarry) := by
  induction conditions with
  | nil => simp
  | cons c conditions ih =>
    rw [List.countP_cons, ih]
    simp only [List.count_cons]
    obtain ⟨carry, zero⟩ := flags
    cases c <;> cases carry <;> cases zero <;> simp [holds] <;> omega

theorem forall_iff {p : Condition → Prop} :
    (∀ c, p c) ↔ p .always ∧ p .zero ∧ p .notZero ∧ p .carry ∧ p .notCarry := by
  constructor
  · intro h
    exact ⟨h _, h _, h _, h _, h _⟩
  · rintro ⟨halways, hzero, hnotZero, hcarry, hnotCarry⟩ (_ | _ | _ | _ | _) <;> assumption

theorem forall_countP_holds_iff (conditions : List Condition) :
    (∀ flags, conditions.countP (·.holds flags) = 1) ↔ Complete conditions := by
  simp only [countP_holds, Complete, List.perm_iff_count, forall_iff]
  simp only [List.count_cons, List.count_nil, beq_iff_eq, reduceCtorEq, if_true, if_false,
    Nat.zero_add]
  constructor
  · intro h
    have neither := h ⟨false, false⟩
    have zero := h ⟨false, true⟩
    have carry := h ⟨true, false⟩
    simp only [if_true, if_false, Bool.false_eq_true] at neither zero carry
    omega
  · rintro h ⟨_ | _, _ | _⟩ <;> simp only [if_true, if_false, Bool.false_eq_true] <;> omega

end Condition

variable {w : Wiring}

/-- All that a line reaches under a name has the line: one slot, or the two of a double register, of
which only the low one counts up by itself. -/
def Place.Supports (w : Wiring) (signal : Signal) : Place w.size → Prop
  | .single slot => (w.slots.get slot).lines.contains signal = true
  | .double low high => (w.slots.get low).lines.contains signal = true ∧
    (signal ≠ .incr → (w.slots.get high).lines.contains signal = true)

def NamedAction.Resolvable (w : Wiring) : NamedAction → Prop
  | .line name signal => ∃ place, w.place? name = some place ∧ place.Supports w signal
  | .halt | .literal _ => True

theorem Place.supports_iff {place : Place w.size} {signal : Signal} : place.Supports w signal ↔
    ∀ slot ∈ place.targets signal, (w.slots.get slot).lines.contains signal = true := by
  cases place <;> cases signal <;> simp [Supports, targets]

namespace Sequencer

theorem exists_resolveAction_iff {named : NamedAction} :
    (∃ actions, resolveAction w named = .ok actions) ↔ named.Resolvable w := by
  cases named with
  | halt | literal value => exact ⟨fun _ => trivial, fun _ => ⟨_, rfl⟩⟩
  | line name signal =>
    simp only [resolveAction, NamedAction.Resolvable]
    cases hplace : w.place? name with
    | none => simp
    | some place =>
      simp only [Option.some.injEq, exists_eq_left', Place.supports_iff]
      constructor
      · rintro ⟨actions, h⟩
        obtain ⟨_, hlines, -⟩ := bind_eq_ok_iff.mp h
        exact forM_requireLine_eq_ok_iff.mp hlines
      · intro supported
        exact ⟨_, bind_eq_ok_iff.mpr ⟨(), forM_requireLine_eq_ok_iff.mpr supported, rfl⟩⟩

theorem exists_resolveStep_iff {step : List NamedAction} :
    (∃ actions, resolveStep w step = .ok actions) ↔ ∀ named ∈ step, named.Resolvable w := by
  simp only [← exists_resolveAction_iff, ← exists_mapM_iff]
  unfold resolveStep
  constructor
  · rintro ⟨actions, h⟩
    obtain ⟨parts, hparts, -⟩ := bind_eq_ok_iff.mp h
    exact ⟨parts, hparts⟩
  · rintro ⟨parts, hparts⟩
    exact ⟨_, bind_eq_ok_iff.mpr ⟨parts, hparts, rfl⟩⟩

theorem exists_resolveRoutine_iff {set : InstructionSet} {named : NamedRoutine} :
    (∃ entry, resolveRoutine w set named = .ok entry) ↔
      (∃ i, set.named? named.instruction = some i) ∧
        ∀ step ∈ named.program, ∀ action ∈ step, action.Resolvable w := by
  simp only [← exists_resolveStep_iff, ← exists_mapM_iff]
  unfold resolveRoutine
  cases set.named? named.instruction with
  | none => simp
  | some i =>
    constructor
    · rintro ⟨entry, h⟩
      obtain ⟨steps, hsteps, -⟩ := bind_eq_ok_iff.mp h
      exact ⟨⟨i, rfl⟩, steps, hsteps⟩
    · rintro ⟨-, steps, hsteps⟩
      exact ⟨_, bind_eq_ok_iff.mpr ⟨steps, hsteps, rfl⟩⟩

theorem exists_routinesOf_iff {n : Nat} {routines : List (Word × Routine n)} {i : Instruction} :
    (∃ entry, routinesOf routines i = .ok entry) ↔
      Condition.Complete ((routines.filter (·.1 == i.opcode)).map (·.2.condition)) := by
  have counted : ∀ flags : Flags,
      ((routines.filter (·.1 == i.opcode)).map (·.2.condition)).countP (·.holds flags) =
        ((routines.filter (·.1 == i.opcode)).map Prod.snd).countP (·.condition.holds flags) := by
    intro flags
    rw [List.countP_map, List.countP_map]
    rfl
  rw [← Condition.forall_countP_holds_iff]
  simp only [counted]
  constructor
  · rintro ⟨entry, h⟩
    obtain ⟨rfl, unique⟩ := routinesOf_eq_ok_iff.mp h
    exact unique
  · intro unique
    exact ⟨_, routinesOf_eq_ok_iff.mpr ⟨rfl, unique⟩⟩

/-- The routines that are written for an instruction, in the order of the microcode. -/
def familyOf (set : InstructionSet) (microcode : List NamedRoutine) (i : Instruction) :
    List NamedRoutine :=
  microcode.filter fun named => set.named? named.instruction == some i

variable {set : InstructionSet} {microcode : List NamedRoutine} {instructions : List Instruction}

theorem map_condition_filter {i : Instruction}
    (own : ∀ name j, set.named? name = some j → j.opcode = i.opcode → j = i)
    {routines : List (Word × Routine w.size)}
    (h : List.Forall₂ (fun named entry => resolveRoutine w set named = .ok entry)
      microcode routines) :
    (routines.filter (·.1 == i.opcode)).map (·.2.condition) =
      (familyOf set microcode i).map (·.condition) := by
  unfold familyOf
  induction h with
  | nil => rfl
  | @cons named entry _ _ hentry _ ih =>
    obtain ⟨j, hj, hopcode, resolves⟩ := resolveRoutine_ok hentry
    rw [List.filter_cons, List.filter_cons, hj, hopcode]
    by_cases same : j = i
    · subst same
      simp [ih, resolves.condition]
    · have different : j.opcode ≠ i.opcode := fun h => same (own _ j hj h)
      simpa [same, different] using ih

/-- Microcode with everything that it needs. -/
structure Sound (w : Wiring) (set : InstructionSet) (microcode : List NamedRoutine) : Prop where
  tick : ∃ slot, w.place? "tick" = some (.single slot) ∧
    (w.slots.get slot).lines.contains .incr = true
  instruction : ∃ slot, w.place? "instruction" = some (.single slot)
  known : ∀ named ∈ microcode, ∃ i, set.named? named.instruction = some i
  resolvable : ∀ named ∈ microcode, ∀ step ∈ named.program, ∀ action ∈ step, action.Resolvable w
  complete : ∀ i ∈ set.toList,
    Condition.Complete ((familyOf set microcode i).map (·.condition))

theorem exists_ofMicrocode_iff (hset : InstructionSet.ofList instructions = .ok set) :
    (∃ q, ofMicrocode w set microcode = .ok q) ↔ Sound w set microcode := by
  have own : ∀ i ∈ set.toList, ∀ name j, set.named? name = some j → j.opcode = i.opcode → j = i :=
    fun i hi _ _ hj => InstructionSet.eq_of_named? hset hi hj
  constructor
  · rintro ⟨q, h⟩
    obtain ⟨tick, htick, h⟩ := bind_eq_ok_iff.mp h
    obtain ⟨instruction, hinstruction, h⟩ := bind_eq_ok_iff.mp h
    obtain ⟨_, hincr, h⟩ := bind_eq_ok_iff.mp h
    obtain ⟨routines, hroutines, h⟩ := bind_eq_ok_iff.mp h
    obtain ⟨chosen, hchosen, -⟩ := bind_eq_ok_iff.mp h
    have resolved := exists_mapM_iff.mp ⟨routines, hroutines⟩
    have families := exists_mapM_iff.mp ⟨chosen, hchosen⟩
    refine ⟨⟨tick, requireRole_eq_ok_iff.mp htick, requireLine_eq_ok_iff.mp hincr⟩,
      ⟨instruction, requireRole_eq_ok_iff.mp hinstruction⟩,
      fun named hnamed => (exists_resolveRoutine_iff.mp (resolved named hnamed)).1,
      fun named hnamed => (exists_resolveRoutine_iff.mp (resolved named hnamed)).2,
      fun i hi => ?_⟩
    rw [← map_condition_filter (own i hi) (mapM_eq_ok_iff.mp hroutines)]
    exact exists_routinesOf_iff.mp (families i hi)
  · rintro ⟨⟨tick, htick, hincr⟩, ⟨instruction, hinstruction⟩, known, resolvable, complete⟩
    obtain ⟨routines, hroutines⟩ := exists_mapM_iff.mpr fun named hnamed =>
      exists_resolveRoutine_iff.mpr ⟨known named hnamed, resolvable named hnamed⟩
    obtain ⟨chosen, hchosen⟩ := exists_mapM_iff.mpr fun i hi => exists_routinesOf_iff.mpr
      (map_condition_filter (own i hi) (mapM_eq_ok_iff.mp hroutines) ▸ complete i hi)
    exact ⟨_, bind_eq_ok_iff.mpr ⟨tick, requireRole_eq_ok_iff.mpr htick,
      bind_eq_ok_iff.mpr ⟨instruction, requireRole_eq_ok_iff.mpr hinstruction,
        bind_eq_ok_iff.mpr ⟨(), requireLine_eq_ok_iff.mpr hincr,
          bind_eq_ok_iff.mpr ⟨routines, hroutines, bind_eq_ok_iff.mpr ⟨chosen, hchosen, rfl⟩⟩⟩⟩⟩⟩

/-- In a flag state an instruction is carried out by the steps of one routine and nothing else. -/
structure Performs (q : Sequencer w) (i : Instruction) (flags : Flags) (named : NamedRoutine)
    (routine : Routine w.size) : Prop where
  resolves : Resolves w named routine
  supported : ∀ actions ∈ routine.steps, ∀ a ∈ actions, a.Supported w
  stepCount?_eq : q.stepCount? i.opcode flags = some named.program.length
  cycle_eq : ∀ {params : Parameters} (valid : params.Valid) {δ : Type} [Device δ]
    (d : Datapath ⟨params, valid, w⟩ δ), d.values.get q.instruction = i.opcode → d.flags = flags →
      (q.cycle d).2 = ((d.beginCycle.assertAll (routine.steps.getD (d.values.get q.tick) [])).assert
        (.line q.tick .incr)).endCycle

theorem exists_performs {q : Sequencer w} (hq : ofMicrocode w set microcode = .ok q)
    (hset : InstructionSet.ofList instructions = .ok set) {i : Instruction} (hi : i ∈ set.toList)
    (flags : Flags) : ∃ named routine,
      (familyOf set microcode i).filter (·.condition.holds flags) = [named] ∧
        q.Performs i flags named routine := by
  have complete := ((exists_ofMicrocode_iff hset).mp ⟨q, hq⟩).complete i hi
  have unique := (Condition.forall_countP_holds_iff _).mpr complete flags
  rw [List.countP_map, List.countP_eq_length_filter, List.length_eq_one_iff] at unique
  obtain ⟨named, hnamed⟩ := unique
  have member : named ∈ (familyOf set microcode i).filter (·.condition.holds flags) :=
    hnamed ▸ List.mem_singleton_self named
  obtain ⟨family, holds⟩ := List.mem_filter.mp member
  obtain ⟨inside, hname⟩ := List.mem_filter.mp family
  obtain ⟨routine, selected, resolves⟩ := exists_select? hq inside (eq_of_beq hname) holds
  refine ⟨named, routine, hnamed, resolves, fun actions hactions => ?_, ?_, ?_⟩
  · obtain ⟨step, -, hstep⟩ := exists_mem_left resolves.steps hactions
    exact resolveStep_supported hstep
  · rw [stepCount?_eq, selected, Option.map_some, resolves.steps.length_eq]
  · intro params valid δ _ d hopcode hflags
    subst hflags
    rw [← hopcode] at selected
    exact congrArg (fun actions =>
      ((d.beginCycle.assertAll actions).assert (.line q.tick .incr)).endCycle)
      (actions_eq_getD hq selected _)

/-- Microcode is accepted exactly if `tick` and `instruction` are registers of one word and `tick`
counts up, every routine is for a known instruction, every line that a routine names is one that all
slots which it reaches have, and the conditions of the routines of each instruction are one for all
flag states, or one for each value of one flag. Then in every flag state one routine of an
instruction applies, its steps are counted, and a cycle asserts the lines of its current step alone,
all of which belong to their slots. -/
theorem ofMicrocode_exact (hset : InstructionSet.ofList instructions = .ok set) (w : Wiring)
    (microcode : List NamedRoutine) :
    ((∃ q, ofMicrocode w set microcode = .ok q) ↔ Sound w set microcode) ∧
    ∀ q, ofMicrocode w set microcode = .ok q →
      w.place? "tick" = some (.single q.tick) ∧
      w.place? "instruction" = some (.single q.instruction) ∧
      ∀ i ∈ set.toList, ∀ flags, ∃ named routine,
        (familyOf set microcode i).filter (·.condition.holds flags) = [named] ∧
          q.Performs i flags named routine := by
  refine ⟨exists_ofMicrocode_iff hset, fun q hq => ?_⟩
  obtain ⟨htick, hinstruction⟩ := ofMicrocode_roles hq
  exact ⟨requireRole_eq_ok_iff.mp htick, requireRole_eq_ok_iff.mp hinstruction,
    fun i hi flags => exists_performs hq hset hi flags⟩

theorem ofMicrocode_exact_standard :
    InstructionSet.ofList standardInstructions = .ok Standard.instructionSet ∧
    Sound Standard.wiring Standard.instructionSet standardMicrocode ∧
    ∀ i ∈ Standard.instructionSet.toList, ∀ flags, ∃ named routine,
      (familyOf Standard.instructionSet standardMicrocode i).filter (·.condition.holds flags) =
          [named] ∧
        Standard.sequencer.Performs i flags named routine := by
  obtain ⟨accepted, exact⟩ :=
    ofMicrocode_exact Standard.ofList_eq Standard.wiring standardMicrocode
  exact ⟨Standard.ofList_eq, accepted.mp ⟨_, Standard.ofMicrocode_eq⟩,
    (exact _ Standard.ofMicrocode_eq).2.2⟩

end Sequencer

end BusMachine
