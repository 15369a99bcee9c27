import BusMachine.Proofs.Acceptance
import BusMachine.Sequencer

/-!
What resolved microcode guarantees: in each flag state one routine of an opcode is selected, it is a
routine of the microcode with its names resolved, and every line that it asserts belongs to its
slot.
-/

namespace BusMachine

variable {w : Wiring}

def Action.Supported (w : Wiring) : Action w.size → Prop
  | .line slot signal => (w.slots.get slot).lines.contains signal = true
  | .halt | .literal _ => True

namespace Sequencer

theorem requireRole_eq_ok_iff {role : String} {slot : Fin w.size} :
    requireRole w role = .ok slot ↔ w.place? role = some (.single slot) := by
  unfold requireRole Wiring.slot?
  rcases w.place? role with _ | (_ | _) <;> simp

theorem requireLine_eq_ok_iff {slot : Fin w.size} {signal : Signal} {u : Unit} :
    requireLine w slot signal = .ok u ↔ (w.slots.get slot).lines.contains signal = true := by
  refine ⟨fun h => ?_, fun h => if_pos h⟩
  unfold requireLine at h
  split at h
  · assumption
  · cases h

theorem forM_requireLine_eq_ok_iff {signal : Signal} {slots : List (Fin w.size)} {u : PUnit} :
    slots.forM (requireLine w · signal) = .ok u ↔
      ∀ slot ∈ slots, (w.slots.get slot).lines.contains signal = true := by
  induction slots with
  | nil => exact ⟨fun _ _ hslot => (nomatch hslot), fun _ => rfl⟩
  | cons first rest ih =>
    rw [List.forM_eq_forM, List.forM_cons, bind_eq_ok_iff, List.forall_mem_cons]
    constructor
    · rintro ⟨_, hfirst, hrest⟩
      exact ⟨requireLine_eq_ok_iff.mp hfirst, ih.mp hrest⟩
    · rintro ⟨hfirst, hrest⟩
      exact ⟨(), requireLine_eq_ok_iff.mpr hfirst, ih.mpr hrest⟩

theorem resolveAction_supported {named : NamedAction} {actions : List (Action w.size)}
    (h : resolveAction w named = .ok actions) : ∀ a ∈ actions, a.Supported w := by
  cases named with
  | halt =>
    cases h
    simp [Action.Supported]
  | literal value =>
    cases h
    simp [Action.Supported]
  | line name signal =>
    simp only [resolveAction] at h
    split at h
    · cases h
    · obtain ⟨_, hlines, h⟩ := bind_eq_ok_iff.mp h
      cases h
      intro a ha
      obtain ⟨slot, hslot, rfl⟩ := List.mem_map.mp ha
      exact forM_requireLine_eq_ok_iff.mp hlines slot hslot

theorem resolveStep_ok_iff {step : List NamedAction} {actions : List (Action w.size)} :
    resolveStep w step = .ok actions ↔
      ∃ parts, List.Forall₂ (fun a part => resolveAction w a = .ok part) step parts ∧
        actions = parts.flatten := by
  unfold resolveStep
  rw [bind_eq_ok_iff]
  constructor
  · rintro ⟨parts, hparts, h⟩
    exact ⟨parts, mapM_eq_ok_iff.mp hparts, (Except.ok.inj h).symm⟩
  · rintro ⟨parts, hparts, rfl⟩
    exact ⟨parts, mapM_eq_ok_iff.mpr hparts, rfl⟩

theorem resolveStep_supported {step : List NamedAction} {actions : List (Action w.size)}
    (h : resolveStep w step = .ok actions) : ∀ a ∈ actions, a.Supported w := by
  obtain ⟨parts, hparts, rfl⟩ := resolveStep_ok_iff.mp h
  intro a ha
  obtain ⟨part, hpart, ha⟩ := List.mem_flatten.mp ha
  obtain ⟨named, -, hnamed⟩ := exists_mem_left hparts hpart
  exact resolveAction_supported hnamed a ha

/-- A routine is a named one with the names of its steps resolved. -/
structure Resolves (w : Wiring) (named : NamedRoutine) (routine : Routine w.size) : Prop where
  condition : routine.condition = named.condition
  steps : List.Forall₂ (fun step actions => resolveStep w step = .ok actions)
    named.program routine.steps

def select? (q : Sequencer w) (opcode : Word) (flags : Flags) : Option (Routine w.size) :=
  (q.routines.get? opcode).bind fun own => own.find? (·.condition.holds flags)

theorem stepCount?_eq (q : Sequencer w) (opcode : Word) (flags : Flags) :
    q.stepCount? opcode flags = (q.select? opcode flags).map (·.steps.length) := by
  unfold stepCount? select?
  cases q.routines.get? opcode with
  | none => rfl
  | some own => cases hown : own.find? (·.condition.holds flags) <;> simp [hown]

theorem actions_eq_nil {q : Sequencer w} {opcode : Word} {flags : Flags}
    (h : q.select? opcode flags = none) (step : Word) : q.actions opcode step flags = [] := by
  unfold actions
  unfold select? at h
  cases hown : q.routines.get? opcode with
  | none => rfl
  | some own =>
    rw [hown, Option.bind_some, List.find?_eq_none] at h
    have empty : own.filter (·.condition.holds flags) = [] := by
      rw [List.filter_eq_nil_iff]
      exact h
    simp [empty]

theorem faultIn?_eq_none_iff {n : Nat} {name : String} {own : List (Routine n)} {flags : Flags} :
    faultIn? name own flags = none ↔ own.countP (·.condition.holds flags) = 1 := by
  unfold faultIn?
  split
  · rename_i none
    simp [none]
  · rename_i one
    simp [one]
  · rename_i several
    exact ⟨fun h => (nomatch h), fun h => absurd h several⟩

theorem routinesOf_eq_ok_iff {n : Nat} {routines : List (Word × Routine n)} {i : Instruction}
    {entry : Word × List (Routine n)} : routinesOf routines i = .ok entry ↔
      entry = (i.opcode, (routines.filter (·.1 == i.opcode)).map Prod.snd) ∧
        ∀ flags, entry.2.countP (·.condition.holds flags) = 1 := by
  unfold routinesOf
  dsimp only
  split
  · rename_i empty
    refine ⟨fun h => (nomatch h), ?_⟩
    rintro ⟨rfl, unique⟩
    have one := unique {}
    rw [List.isEmpty_iff.mp empty] at one
    cases one
  · split
    · rename_i fault hfault
      refine ⟨fun h => (nomatch h), ?_⟩
      rintro ⟨rfl, unique⟩
      obtain ⟨flags, -, faulty⟩ := List.exists_of_findSome?_eq_some hfault
      rw [faultIn?_eq_none_iff.mpr (unique flags)] at faulty
      cases faulty
    · rename_i accepted
      constructor
      · intro h
        cases h
        refine ⟨rfl, fun flags => ?_⟩
        exact faultIn?_eq_none_iff.mp
          (List.findSome?_eq_none_iff.mp accepted flags (Flags.mem_all flags))
      · rintro ⟨rfl, -⟩
        rfl

theorem resolveRoutine_ok {set : InstructionSet} {named : NamedRoutine}
    {entry : Word × Routine w.size} (h : resolveRoutine w set named = .ok entry) :
    ∃ i, set.named? named.instruction = some i ∧ entry.1 = i.opcode ∧ Resolves w named entry.2 := by
  unfold resolveRoutine at h
  split at h
  · cases h
  · rename_i i hi
    obtain ⟨steps, hsteps, h⟩ := bind_eq_ok_iff.mp h
    cases h
    exact ⟨i, hi, rfl, rfl, mapM_eq_ok_iff.mp hsteps⟩

/-- What `ofMicrocode` has checked when it accepts. -/
structure Checked (q : Sequencer w) (set : InstructionSet) (microcode : List NamedRoutine)
    (routines : List (Word × Routine w.size)) : Prop where
  tick_incr : w.slots[q.tick].lines.contains .incr = true
  resolved : List.Forall₂ (fun named entry => resolveRoutine w set named = .ok entry)
    microcode routines
  own : ∀ opcode own, q.routines.get? opcode = some own ↔
    (∃ i ∈ set.toList, i.opcode = opcode) ∧
      own = (routines.filter (·.1 == opcode)).map Prod.snd
  unique : ∀ opcode own, q.routines.get? opcode = some own →
    ∀ flags, own.countP (·.condition.holds flags) = 1

variable {q : Sequencer w} {set : InstructionSet} {microcode : List NamedRoutine}

theorem ofMicrocode_checked (h : ofMicrocode w set microcode = .ok q) :
    ∃ routines, q.Checked set microcode routines := by
  obtain ⟨tick, -, h⟩ := bind_eq_ok_iff.mp h
  obtain ⟨instruction, -, h⟩ := bind_eq_ok_iff.mp h
  obtain ⟨_, htick, h⟩ := bind_eq_ok_iff.mp h
  obtain ⟨routines, hroutines, h⟩ := bind_eq_ok_iff.mp h
  obtain ⟨chosen, hchosen, h⟩ := bind_eq_ok_iff.mp h
  cases h
  have chosen_of := mapM_eq_ok_iff.mp hchosen
  have entry_of : ∀ opcode own, (SparseTable.ofList chosen).get? opcode = some own →
      ∃ i ∈ set.toList, routinesOf routines i = .ok (opcode, own) := by
    intro opcode own hown
    rw [SparseTable.get?_ofList] at hown
    obtain ⟨before, after, hsplit, -⟩ := List.lookup_eq_some_iff.mp hown
    have hmem : (opcode, own) ∈ chosen := by
      rw [← List.mem_reverse, hsplit]
      simp
    exact exists_mem_left chosen_of hmem
  refine ⟨routines, requireLine_eq_ok_iff.mp htick, mapM_eq_ok_iff.mp hroutines, ?_, ?_⟩
  · intro opcode own
    constructor
    · intro hown
      obtain ⟨i, hi, hrout⟩ := entry_of opcode own hown
      obtain ⟨heq, -⟩ := routinesOf_eq_ok_iff.mp hrout
      cases heq
      exact ⟨⟨i, hi, rfl⟩, rfl⟩
    · rintro ⟨⟨i, hi, rfl⟩, rfl⟩
      obtain ⟨entry, hentry, hrout⟩ := exists_mem_right chosen_of hi
      have hsome : ((SparseTable.ofList chosen).get? i.opcode).isSome := by
        rw [SparseTable.get?_ofList, List.lookup_isSome_iff]
        have heq := (routinesOf_eq_ok_iff.mp hrout).1
        exact ⟨entry, List.mem_reverse.mpr hentry, by simp [heq]⟩
      obtain ⟨own, hown⟩ := Option.isSome_iff_exists.mp hsome
      obtain ⟨j, -, hj⟩ := entry_of _ own hown
      obtain ⟨heq, -⟩ := routinesOf_eq_ok_iff.mp hj
      obtain ⟨hopcode, rfl⟩ := Prod.mk.inj heq
      rw [hown, hopcode]
  · intro opcode own hown flags
    obtain ⟨i, -, hrout⟩ := entry_of opcode own hown
    exact (routinesOf_eq_ok_iff.mp hrout).2 flags

theorem Checked.select?_eq_some {routines : List (Word × Routine w.size)}
    (hq : q.Checked set microcode routines) {opcode : Word} {flags : Flags}
    {routine : Routine w.size} :
    q.select? opcode flags = some routine ↔
      (∃ i ∈ set.toList, i.opcode = opcode) ∧ (opcode, routine) ∈ routines ∧
        routine.condition.holds flags = true := by
  unfold select?
  rw [Option.bind_eq_some_iff]
  constructor
  · rintro ⟨own, hown, hfind⟩
    obtain ⟨hi, rfl⟩ := (hq.own opcode own).mp hown
    have hmem := List.mem_of_find?_eq_some hfind
    simp only [List.mem_map, List.mem_filter, beq_iff_eq] at hmem
    obtain ⟨entry, ⟨hentry, rfl⟩, rfl⟩ := hmem
    exact ⟨hi, hentry, by simpa using List.find?_some hfind⟩
  · rintro ⟨hi, hmem, hholds⟩
    have hown := (hq.own opcode _).mpr ⟨hi, rfl⟩
    refine ⟨_, hown, ?_⟩
    have hone := hq.unique _ _ hown flags
    rw [List.countP_eq_length_filter, List.length_eq_one_iff] at hone
    obtain ⟨only, honly⟩ := hone
    have hroutine : routine ∈ [only] := by
      rw [← honly]
      simp only [List.mem_filter, List.mem_map, beq_iff_eq]
      exact ⟨⟨(opcode, routine), ⟨hmem, rfl⟩, rfl⟩, hholds⟩
    rw [← List.head?_filter, honly, List.mem_singleton.mp hroutine]
    rfl

theorem exists_select? (h : ofMicrocode w set microcode = .ok q) {named : NamedRoutine}
    (hnamed : named ∈ microcode) {i : Instruction}
    (hi : set.named? named.instruction = some i) {flags : Flags}
    (hflags : named.condition.holds flags = true) :
    ∃ routine, q.select? i.opcode flags = some routine ∧ Resolves w named routine := by
  obtain ⟨routines, hq⟩ := ofMicrocode_checked h
  obtain ⟨⟨opcode, routine⟩, hentry, hresolve⟩ := exists_mem_right hq.resolved hnamed
  obtain ⟨j, hj, hopcode, hres⟩ := resolveRoutine_ok hresolve
  rw [hi] at hj
  cases hj
  cases hopcode
  refine ⟨routine, hq.select?_eq_some.mpr ⟨⟨i, InstructionSet.named?_mem hi, rfl⟩, hentry, ?_⟩,
    hres⟩
  rw [hres.condition]
  exact hflags

theorem select?_resolves (h : ofMicrocode w set microcode = .ok q) {opcode : Word} {flags : Flags}
    {routine : Routine w.size} (hs : q.select? opcode flags = some routine) :
    ∃ named ∈ microcode, ∃ i, set.named? named.instruction = some i ∧ i.opcode = opcode ∧
      named.condition.holds flags = true ∧ Resolves w named routine := by
  obtain ⟨routines, hq⟩ := ofMicrocode_checked h
  obtain ⟨-, hmem, hholds⟩ := hq.select?_eq_some.mp hs
  obtain ⟨named, hnamed, hresolve⟩ := exists_mem_left hq.resolved hmem
  obtain ⟨i, hi, hopcode, hres⟩ := resolveRoutine_ok hresolve
  exact ⟨named, hnamed, i, hi, hopcode.symm, hres.condition ▸ hholds, hres⟩

theorem actions_eq_getD (h : ofMicrocode w set microcode = .ok q) {opcode : Word} {flags : Flags}
    {routine : Routine w.size} (hs : q.select? opcode flags = some routine) (step : Word) :
    q.actions opcode step flags = routine.steps.getD step [] := by
  obtain ⟨routines, hq⟩ := ofMicrocode_checked h
  unfold select? at hs
  obtain ⟨own, hown, hfind⟩ := Option.bind_eq_some_iff.mp hs
  have hone := hq.unique _ _ hown flags
  rw [List.countP_eq_length_filter, List.length_eq_one_iff] at hone
  obtain ⟨only, honly⟩ := hone
  rw [← List.head?_filter, honly] at hfind
  cases hfind
  simp [actions, hown, honly]

theorem actions_resolved (h : ofMicrocode w set microcode = .ok q) (opcode step : Word)
    (flags : Flags) :
    q.actions opcode step flags = [] ∨ ∃ named ∈ microcode, ∃ source ∈ named.program,
      resolveStep w source = .ok (q.actions opcode step flags) := by
  cases hs : q.select? opcode flags with
  | none => exact .inl (actions_eq_nil hs step)
  | some routine =>
    obtain ⟨named, hnamed, -, -, -, -, hres⟩ := select?_resolves h hs
    rw [actions_eq_getD h hs, List.getD_eq_getElem?_getD]
    cases hstep : routine.steps[step]? with
    | none => exact .inl rfl
    | some actions =>
      obtain ⟨source, hsource, hresolve⟩ :=
        exists_mem_left hres.steps (List.mem_of_getElem? hstep)
      exact .inr ⟨named, hnamed, source, hsource, hresolve⟩

theorem actions_supported (h : ofMicrocode w set microcode = .ok q) (opcode step : Word)
    (flags : Flags) : ∀ a ∈ q.actions opcode step flags, a.Supported w := by
  obtain hnil | ⟨named, -, source, -, hresolve⟩ := actions_resolved h opcode step flags
  · rw [hnil]
    intro a ha
    cases ha
  · exact resolveStep_supported hresolve

theorem ofMicrocode_roles (h : ofMicrocode w set microcode = .ok q) :
    requireRole w "tick" = .ok q.tick ∧ requireRole w "instruction" = .ok q.instruction := by
  obtain ⟨tick, htick, h⟩ := bind_eq_ok_iff.mp h
  obtain ⟨instruction, hinstruction, h⟩ := bind_eq_ok_iff.mp h
  obtain ⟨_, -, h⟩ := bind_eq_ok_iff.mp h
  obtain ⟨routines, -, h⟩ := bind_eq_ok_iff.mp h
  obtain ⟨chosen, -, h⟩ := bind_eq_ok_iff.mp h
  cases h
  exact ⟨htick, hinstruction⟩

theorem tick_incr (h : ofMicrocode w set microcode = .ok q) :
    w.slots[q.tick].lines.contains .incr = true :=
  (ofMicrocode_checked h).choose_spec.tick_incr

end Sequencer

end BusMachine
