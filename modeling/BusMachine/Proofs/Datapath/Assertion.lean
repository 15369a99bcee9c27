import BusMachine.Device.Queue
import BusMachine.Proofs.Datapath.Bus
import BusMachine.Proofs.Datapath.Order
import BusMachine.Proofs.Sequencer.Acceptance
import BusMachine.Proofs.Text.Decimal
import BusMachine.Proofs.Wiring.Acceptance
import Mathlib.Data.Nat.Bitwise

/-!
Asserting lines by name and by slot. What a cycle asserts is a set: neither the order of the actions
nor their number matters. A named action asserts the same, and is refused in the same cases, whether
it is resolved for a sequencer or asserted as text, and a text that is refused asserts nothing.
-/

namespace BusMachine

namespace Datapath

variable {c : Circuit} {δ : Type}

namespace Asserted

variable {n : Nat}

theorem contains_foldl (actions : List (Action n)) (asserted : Asserted n) (i : Fin n)
    (signal : Signal) : ((actions.foldl Asserted.and asserted).active.get i).contains signal =
      ((asserted.active.get i).contains signal || decide (.line i signal ∈ actions)) := by
  induction actions generalizing asserted with
  | nil => simp
  | cons a rest ih =>
    rw [List.foldl_cons, ih]
    cases a with
    | halt | literal value => simp [Asserted.and]
    | line slot line =>
      have here : ((asserted.and (.line slot line)).active.get i).contains signal =
          ((asserted.active.get i).contains signal ||
            decide (Action.line i signal = .line slot line)) := by
        simp only [Asserted.and, get_set, Action.line.injEq]
        by_cases hslot : slot = i
        · subst hslot
          rw [if_pos rfl, Lines.contains_insert, Bool.or_comm]
          simp [eq_comm]
        · simp [hslot, Ne.symm hslot]
      rw [here, Bool.or_assoc]
      simp only [List.mem_cons, Bool.decide_or]

theorem halting_foldl (actions : List (Action n)) (asserted : Asserted n) :
    (actions.foldl Asserted.and asserted).halting =
      (asserted.halting || decide (.halt ∈ actions)) := by
  induction actions generalizing asserted with
  | nil => simp
  | cons a rest ih =>
    rw [List.foldl_cons, ih]
    cases a <;> simp [Asserted.and]

theorem testBit_bus_foldl (actions : List (Action n)) (asserted : Asserted n) (k : Nat) :
    (actions.foldl Asserted.and asserted).bus.testBit k = true ↔
      asserted.bus.testBit k = true ∨
        ∃ value, .literal value ∈ actions ∧ value.testBit k = true := by
  induction actions generalizing asserted with
  | nil => simp
  | cons a rest ih =>
    rw [List.foldl_cons, ih]
    cases a with
    | line slot signal => simp [Asserted.and]
    | halt => simp [Asserted.and]
    | literal value => simp [Asserted.and, Nat.testBit_or, or_assoc, or_and_right, exists_or]

theorem foldl_eq_of_mem_iff {actions actions' : List (Action n)}
    (h : ∀ a, a ∈ actions ↔ a ∈ actions') (asserted : Asserted n) :
    actions.foldl Asserted.and asserted = actions'.foldl Asserted.and asserted := by
  have active : (actions.foldl Asserted.and asserted).active =
      (actions'.foldl Asserted.and asserted).active := by
    refine Vector.ext fun i hi => Lines.ext_contains fun signal => ?_
    have left := contains_foldl actions asserted ⟨i, hi⟩ signal
    have right := contains_foldl actions' asserted ⟨i, hi⟩ signal
    simp only [h] at left
    exact left.trans right.symm
  have bus : (actions.foldl Asserted.and asserted).bus =
      (actions'.foldl Asserted.and asserted).bus := by
    refine Nat.eq_of_testBit_eq fun k => Bool.eq_iff_iff.mpr ?_
    simp only [testBit_bus_foldl, h]
  have halting : (actions.foldl Asserted.and asserted).halting =
      (actions'.foldl Asserted.and asserted).halting := by
    simp only [halting_foldl, h]
  calc
    actions.foldl Asserted.and asserted
      = ⟨(actions.foldl Asserted.and asserted).active, (actions.foldl Asserted.and asserted).bus,
          (actions.foldl Asserted.and asserted).halting⟩ := rfl
    _ = actions'.foldl Asserted.and asserted := by rw [active, bus, halting]

end Asserted

theorem assertAll_eq_of_mem_iff {actions actions' : List (Action c.size)}
    (h : ∀ a, a ∈ actions ↔ a ∈ actions') (d : Datapath c δ) :
    d.assertAll actions = d.assertAll actions' := by
  have performed : ∀ actions : List (Action c.size), d.assertAll actions =
      d.withAsserted (actions.foldl Asserted.and ⟨d.active, d.bus, d.halting⟩) :=
    fun actions => withAsserted_assertAll d actions ⟨d.active, d.bus, d.halting⟩
  rw [performed, performed, Asserted.foldl_eq_of_mem_iff h]

end Datapath

/-- The component and the line under which an action is asserted by name. -/
def NamedAction.written : NamedAction → String × String
  | .line component signal => (component, signal.name)
  | .halt => (reservedName, "halt")
  | .literal value => (reservedName, toString value)

theorem Signal.ofName?_name (signal : Signal) : ofName? signal.name = some signal := by
  cases signal <;> rfl

theorem Sequencer.resolveAction_line {w : Wiring} {name : String} {signal : Signal}
    {place : Place w.size} (hplace : w.place? name = some place)
    (supports : place.Supports w signal) : resolveAction w (.line name signal) =
      .ok ((place.targets signal).map (.line · signal)) := by
  simp only [resolveAction, hplace]
  have lines := Place.supports_iff.mp supports
  exact bind_eq_ok_iff.mpr ⟨(), forM_requireLine_eq_ok_iff.mpr lines, rfl⟩

theorem Wiring.place?_reservedName {components : List Component} {w : Wiring}
    (hw : ofComponents components = .ok w) : w.place? reservedName = none :=
  (realizes_of_ofComponents hw).undeclared reservedName
    (exists_ofComponents_iff.mp ⟨w, hw⟩).unreserved

namespace Datapath

variable {c : Circuit} {δ : Type}

theorem machineAction?_name (signal : Signal) :
    (machineAction? signal.name : Option (Action c.size)) = none := by
  cases signal <;> rfl

theorem machineAction?_toString {value : Word} (h : value ≤ maxWord) :
    (machineAction? (toString value) : Option (Action c.size)) = some (.literal value) := by
  have letter : 'h' ∈ (Text.lower "halt").toList := by decide
  unfold machineAction?
  rw [Text.not_sameLetters_toString letter rfl, Text.natural?_trim_toString h]
  rfl

theorem namedActions_written {components : List Component}
    (hw : Wiring.ofComponents components = .ok c.wiring) {named : NamedAction}
    (hnamed : named.literalBelow addressSpace = true) {actions : List (Action c.size)} :
    namedActions c named.written.1 named.written.2 = .ok actions ↔
      Sequencer.resolveAction c.wiring named = .ok actions := by
  unfold namedActions
  cases named with
  | halt =>
    have action : (machineAction? "halt" : Option (Action c.size)) = some .halt := rfl
    simp only [NamedAction.written, if_pos, action, Sequencer.resolveAction, Except.ok.injEq]
  | literal value =>
    have fits : value ≤ maxWord := Nat.le_of_lt_succ (of_decide_eq_true hnamed)
    simp only [NamedAction.written, if_pos, machineAction?_toString fits, Sequencer.resolveAction,
      Except.ok.injEq]
  | line name signal =>
    simp only [NamedAction.written, Signal.ofName?_name, Sequencer.resolveAction]
    split
    · rename_i hname
      rw [hname, Wiring.place?_reservedName hw, machineAction?_name]
      simp only [reduceCtorEq]
    · cases c.wiring.place? name with
      | none => simp only [reduceCtorEq]
      | some place =>
        dsimp only
        rw [bind_eq_ok_iff]
        split
        · rename_i hlines
          constructor
          · intro h
            cases h
            have supported := List.all_eq_true.mp hlines
            exact ⟨(), Sequencer.forM_requireLine_eq_ok_iff.mpr supported, rfl⟩
          · rintro ⟨_, -, h⟩
            cases h
            rfl
        · rename_i hlines
          constructor
          · intro h
            cases h
          · rintro ⟨_, h, -⟩
            exact absurd (List.all_eq_true.mpr (Sequencer.forM_requireLine_eq_ok_iff.mp h)) hlines

theorem assertNamed_eq_ok_iff {d d' : Datapath c δ} {name signal : String} :
    d.assertNamed name signal = .ok d' ↔
      ∃ actions, namedActions c name signal = .ok actions ∧ d' = d.assertAll actions := by
  unfold assertNamed
  cases namedActions c name signal with
  | error fault => simp
  | ok actions => simp [eq_comm]

def assertLines (d : Datapath c δ) (lines : List (String × String)) :
    Except RequestFault (Datapath c δ) :=
  lines.foldlM (fun d line => d.assertNamed line.1 line.2) d

theorem assertLines_eq_ok_iff {d d' : Datapath c δ} {lines : List (String × String)} :
    d.assertLines lines = .ok d' ↔
      ∃ parts, List.Forall₂ (fun line part => namedActions c line.1 line.2 = .ok part) lines parts ∧
        d' = d.assertAll parts.flatten := by
  unfold assertLines
  induction lines generalizing d with
  | nil =>
    simp only [List.foldlM_nil, List.forall₂_nil_left_iff, exists_eq_left]
    exact ⟨fun h => (Except.ok.inj h).symm, fun h => congrArg Except.ok h.symm⟩
  | cons line rest ih =>
    simp only [List.foldlM_cons, bind_eq_ok_iff, assertNamed_eq_ok_iff, ih,
      List.forall₂_cons_left_iff]
    have joined : ∀ (d : Datapath c δ) (part rest : List (Action c.size)),
        (d.assertAll part).assertAll rest = d.assertAll (part ++ rest) :=
      fun d part rest => List.foldl_append.symm
    constructor
    · rintro ⟨_, ⟨part, hpart, rfl⟩, parts, hparts, rfl⟩
      exact ⟨_, ⟨part, parts, hpart, hparts, rfl⟩, joined d part parts.flatten⟩
    · rintro ⟨_, ⟨part, parts, hpart, hparts, rfl⟩, rfl⟩
      exact ⟨_, ⟨part, hpart, rfl⟩, parts, hparts, (joined d part parts.flatten).symm⟩

def cycleLines [Device δ] (d : Datapath c δ) (lines : List (String × String)) :
    Except RequestFault (Datapath c δ) :=
  return (← d.beginCycle.assertLines lines).endCycle

def cyclesLines [Device δ] (d : Datapath c δ) (cycles : List (List (String × String))) :
    Except RequestFault (Datapath c δ) :=
  cycles.foldlM cycleLines d

/-- Asserts a line by name on the spot: slot by slot, and what was done before a refusal stays. -/
def assertInPlace (name signal : String) : EStateM RequestFault (Datapath c δ) Unit := do
  let refused := RequestFault.unknownSignal name signal
  if name = reservedName then
    match machineAction? signal with
    | some action => modify (·.assert action)
    | none => throw refused
  else match c.wiring.place? name with
    | none => throw (.unknownComponent name)
    | some place =>
      match Signal.ofName? signal with
      | none => throw refused
      | some line =>
        let targets := place.targets line
        targets.forM fun i => do
          if !(c.wiring.slots.get i).lines.contains line then throw refused
        targets.forM fun i => modify (·.assert (.line i line))

theorem forM_check_run (slots : List (Fin c.size)) (line : Signal) (fault : RequestFault)
    (d : Datapath c δ) :
    (slots.forM fun i => do
      if !(c.wiring.slots.get i).lines.contains line then throw fault :
        EStateM RequestFault (Datapath c δ) Unit).run d =
      if slots.all fun i => (c.wiring.slots.get i).lines.contains line then .ok () d
      else .error fault d := by
  induction slots with
  | nil => rfl
  | cons i rest ih =>
    rw [List.forM_eq_forM, List.forM_cons, List.all_cons]
    cases hline : (c.wiring.slots.get i).lines.contains line with
    | true => simpa using ih
    | false => rfl

theorem forM_assert_run (slots : List (Fin c.size)) (line : Signal) (d : Datapath c δ) :
    (slots.forM fun i => modify (·.assert (.line i line)) :
        EStateM RequestFault (Datapath c δ) Unit).run d =
      .ok () (d.assertAll (slots.map (.line · line))) := by
  induction slots generalizing d with
  | nil => rfl
  | cons i rest ih =>
    rw [List.forM_eq_forM, List.forM_cons]
    exact ih (d.assert (.line i line))

theorem assertInPlace_run (name signal : String) (d : Datapath c δ) :
    (assertInPlace name signal).run d =
      match d.assertNamed name signal with
      | .ok d' => .ok () d'
      | .error fault => .error fault d := by
  unfold assertInPlace assertNamed namedActions
  dsimp only
  split
  · cases machineAction? signal with
    | none => rfl
    | some action => rfl
  · cases c.wiring.place? name with
    | none => rfl
    | some place =>
      cases Signal.ofName? signal with
      | none => rfl
      | some line =>
        have checked := forM_check_run (place.targets line) line (.unknownSignal name signal) d
        have asserted := forM_assert_run (place.targets line) line d
        rw [EStateM.run_bind, checked]
        dsimp only
        cases (place.targets line).all fun i => (c.wiring.slots.get i).lines.contains line with
        | true => exact asserted
        | false => rfl

theorem mem_flatten_iff {α ε β : Type} {f : α → Except ε (List β)} {l : List α}
    {parts : List (List β)} (h : List.Forall₂ (fun a part => f a = .ok part) l parts) {b : β} :
    b ∈ parts.flatten ↔ ∃ a ∈ l, ∃ part, f a = .ok part ∧ b ∈ part := by
  rw [List.mem_flatten]
  constructor
  · rintro ⟨part, hpart, hb⟩
    obtain ⟨a, ha, hok⟩ := exists_mem_left h hpart
    exact ⟨a, ha, part, hok, hb⟩
  · rintro ⟨a, ha, part, hok, hb⟩
    obtain ⟨part', hpart, hok'⟩ := exists_mem_right h ha
    obtain rfl := Except.ok.inj (hok.symm.trans hok')
    exact ⟨part, hpart, hb⟩

section Written

variable {components : List Component} (hw : Wiring.ofComponents components = .ok c.wiring)
include hw

theorem exists_assertNamed_iff {named : NamedAction}
    (fits : named.literalBelow addressSpace = true) (d : Datapath c δ) :
    (∃ d', d.assertNamed named.written.1 named.written.2 = .ok d') ↔
      named.Resolvable c.wiring := by
  simp only [assertNamed_eq_ok_iff, namedActions_written hw fits,
    ← Sequencer.exists_resolveAction_iff]
  constructor
  · rintro ⟨_, actions, hactions, -⟩
    exact ⟨actions, hactions⟩
  · rintro ⟨actions, hactions⟩
    exact ⟨_, actions, hactions, rfl⟩

theorem assertLines_written {step calls : List NamedAction}
    (fits : ∀ a ∈ step, a.literalBelow addressSpace = true) (hcalls : ∀ a, a ∈ calls ↔ a ∈ step)
    {actions : List (Action c.size)} (hactions : Sequencer.resolveStep c.wiring step = .ok actions)
    (d : Datapath c δ) :
    d.assertLines (calls.map NamedAction.written) = .ok (d.assertAll actions) := by
  obtain ⟨parts, hparts, rfl⟩ := Sequencer.resolveStep_ok_iff.mp hactions
  have accepted : ∀ a ∈ calls, ∃ part, Sequencer.resolveAction c.wiring a = .ok part := by
    intro a ha
    obtain ⟨part, -, hpart⟩ := exists_mem_right hparts ((hcalls a).mp ha)
    exact ⟨part, hpart⟩
  obtain ⟨called, hcalled⟩ := exists_mapM_iff.mpr accepted
  have resolved := mapM_eq_ok_iff.mp hcalled
  have same : ∀ a, a ∈ called.flatten ↔ a ∈ parts.flatten := by
    simp only [mem_flatten_iff resolved, mem_flatten_iff hparts, hcalls, implies_true]
  rw [assertLines_eq_ok_iff, ← assertAll_eq_of_mem_iff same]
  have fitting := (List.forall₂_and_left _ _).mpr ⟨fun a ha => fits a ((hcalls a).mp ha), resolved⟩
  refine ⟨called, List.forall₂_map_left_iff.mpr (fitting.imp ?_), rfl⟩
  exact fun a part ⟨hfits, hpart⟩ => (namedActions_written hw hfits).mpr hpart

theorem cycleLines_written [Device δ] {step : List NamedAction}
    (fits : ∀ a ∈ step, a.literalBelow addressSpace = true) {actions : List (Action c.size)}
    (hactions : Sequencer.resolveStep c.wiring step = .ok actions) (d : Datapath c δ) :
    d.cycleLines (step.map NamedAction.written) =
      .ok (d.beginCycle.assertAll actions).endCycle := by
  unfold cycleLines
  rw [assertLines_written hw fits (fun _ => Iff.rfl) hactions d.beginCycle]
  rfl

/-- The actions of a step can be resolved exactly if each of them can be asserted by name, and calls
for them, in any order and any number of times, then end a cycle in the same datapath, with the same
accesses to ports, as the resolved actions. A call that is refused changes nothing, even if it is
carried out slot by slot. -/
theorem written_actions_exact [Device δ] {step : List NamedAction}
    (fits : ∀ a ∈ step, a.literalBelow addressSpace = true) (d : Datapath c δ) :
    ((∃ actions, Sequencer.resolveStep c.wiring step = .ok actions) ↔
      ∀ a ∈ step, ∃ d', d.assertNamed a.written.1 a.written.2 = .ok d') ∧
    (∀ actions, Sequencer.resolveStep c.wiring step = .ok actions →
      ∀ calls : List NamedAction, (∀ a, a ∈ calls ↔ a ∈ step) →
        ∃ called, d.beginCycle.assertLines (calls.map NamedAction.written) = .ok called ∧
          called.endCycle = (d.beginCycle.assertAll actions).endCycle ∧
          called.traffic = (d.beginCycle.assertAll actions).traffic) ∧
    ∀ name signal,
      match (assertInPlace name signal).run d with
      | .ok _ d' => d.assertNamed name signal = .ok d'
      | .error fault d' => d.assertNamed name signal = .error fault ∧ d' = d := by
  refine ⟨?_, fun actions hactions calls hcalls => ?_, fun name signal => ?_⟩
  · rw [Sequencer.exists_resolveStep_iff]
    exact forall₂_congr fun a ha => (exists_assertNamed_iff hw (fits a ha) d).symm
  · exact ⟨_, assertLines_written hw fits hcalls hactions d.beginCycle, rfl, rfl⟩
  · rw [assertInPlace_run]
    cases d.assertNamed name signal with
    | ok d' => rfl
    | error fault => exact ⟨rfl, rfl⟩

end Written

end Datapath

def doubleComponents : List Component :=
  [{ name := "pc", double := true },
    { name := "address", lines := { latch := true, drive := true }, double := true },
    .ofKind "memory" (.memory "address"),
    .register "a" .full]

def doubleWiring : Wiring where
  size := 6
  slots :=
    let store : Lines := { latch := true, drive := true }
    #v[⟨"pc_l", .register, .full, some 1⟩,
      ⟨"pc_h", .register, .full, none⟩,
      ⟨"address_l", .register, store, some 3⟩,
      ⟨"address_h", .register, store, none⟩,
      ⟨"memory", .memory (.double 2 3), store, none⟩,
      ⟨"a", .register, .full, none⟩]
  names := [("a", .single 5), ("memory", .single 4), ("address_h", .single 3),
    ("address_l", .single 2), ("address", .double 2 3), ("pc_h", .single 1), ("pc_l", .single 0),
    ("pc", .double 0 1)]

theorem ofComponents_double : Wiring.ofComponents doubleComponents = .ok doubleWiring := by
  rfl

theorem fullMemory_valid : Parameters.fullMemory.Valid :=
  ⟨by decide, by decide, by decide, by decide, by decide, by decide⟩

def doubleCircuit : Circuit := ⟨.fullMemory, fullMemory_valid, doubleWiring⟩

namespace Datapath

def doubleStep : List NamedAction :=
  [.line "pc" .drive, .line "address" .latch, .literal 513, .halt]

theorem written_actions_exact_double :
    ∃ actions called, Sequencer.resolveStep doubleWiring doubleStep = .ok actions ∧
      actions.length = 6 ∧
      (initial : Datapath doubleCircuit QueueDevice).beginCycle.assertLines
        [("address", "in"), ("_", "halt"), ("pc", "out"), ("_", "513"), ("address", "in")] =
          .ok called ∧
      called.endCycle =
        ((initial : Datapath doubleCircuit QueueDevice).beginCycle.assertAll actions).endCycle := by
  have fits : ∀ a ∈ doubleStep, a.literalBelow addressSpace = true := by decide
  obtain ⟨-, agree, -⟩ := written_actions_exact (c := doubleCircuit) ofComponents_double fits
    (initial : Datapath doubleCircuit QueueDevice)
  obtain ⟨actions, hactions, hlength⟩ : ∃ actions,
      Sequencer.resolveStep doubleWiring doubleStep = .ok actions ∧ actions.length = 6 :=
    ⟨_, rfl, rfl⟩
  have members : ∀ a, a ∈ [.line "address" .latch, .halt, .line "pc" .drive, .literal 513,
      .line "address" .latch] ↔ a ∈ doubleStep := by
    simp only [doubleStep, List.mem_cons, List.not_mem_nil]
    grind
  obtain ⟨called, hcalled, hend, -⟩ := agree actions hactions _ members
  exact ⟨actions, called, hactions, hlength, hcalled, hend⟩

end Datapath

end BusMachine
