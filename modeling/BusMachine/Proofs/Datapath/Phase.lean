import BusMachine.Datapath

/-!
What the phases of a cycle do and what they leave alone: the asserted lines stay as they are until
the next cycle begins, only driving changes the bus, and a slot without asserted lines takes no
part.
-/

namespace BusMachine.Datapath

variable {c : Circuit} {δ : Type}

theorem increment_eq {i : Fin c.size} (h : (c.wiring.slots.get i).carryInto = none)
    (d : Datapath c δ) :
    d.increment i =
      { d with values := d.values.set i ((d.values.get i + 1) % c.wordSize) i.isLt } := by
  change c.wiring.slots[i].carryInto = none at h
  unfold increment
  dsimp only
  rw [h]
  rfl

section Visits

variable [Device δ] {i : Fin c.size}

theorem drive_register (h : (c.wiring.slots.get i).kind = .register) (d : Datapath c δ) :
    d.drive i = { d with bus := d.bus ||| d.values.get i } := by
  change c.wiring.slots[i].kind = _ at h
  unfold drive
  rw [h]
  rfl

theorem drive_memory {address : Place c.size} (h : (c.wiring.slots.get i).kind = .memory address)
    (d : Datapath c δ) : d.drive i = d.put i (d.memory.get (d.cell address)) := by
  change c.wiring.slots[i].kind = _ at h
  unfold drive
  rw [h]
  rfl

theorem drive_port {selector : Place c.size} (h : (c.wiring.slots.get i).kind = .port selector)
    (d : Datapath c δ) :
    d.drive i = { d with ports := (d.ports.read (d.portNumber selector)).2 }.put i
      ((d.ports.read (d.portNumber selector)).1 % c.wordSize) := by
  change c.wiring.slots[i].kind = _ at h
  unfold drive
  rw [h]

theorem drive_adder {lhs rhs : Fin c.size} (h : (c.wiring.slots.get i).kind = .adder lhs rhs)
    (d : Datapath c δ) :
    d.drive i = d.putResult i (.add c.wordSize (d.values.get lhs) (d.values.get rhs)) := by
  change c.wiring.slots[i].kind = _ at h
  unfold drive
  rw [h]
  rfl

theorem drive_subtractor {lhs rhs : Fin c.size}
    (h : (c.wiring.slots.get i).kind = .subtractor lhs rhs) (d : Datapath c δ) :
    d.drive i = d.putResult i (.sub c.wordSize (d.values.get lhs) (d.values.get rhs)) := by
  change c.wiring.slots[i].kind = _ at h
  unfold drive
  rw [h]
  rfl

theorem latch_register (h : (c.wiring.slots.get i).kind = .register) (d : Datapath c δ)
    (word : Word) : d.latch word i = { d with values := d.values.set i word i.isLt } := by
  change c.wiring.slots[i].kind = _ at h
  unfold latch
  rw [h]

theorem latch_memory {address : Place c.size} (h : (c.wiring.slots.get i).kind = .memory address)
    (d : Datapath c δ) (word : Word) :
    d.latch word i =
      { d with memory := d.memory.set (d.cell address) word (d.cell address).isLt
               values := d.values.set i word i.isLt } := by
  change c.wiring.slots[i].kind = _ at h
  unfold latch
  rw [h]

theorem latch_port {selector : Place c.size} (h : (c.wiring.slots.get i).kind = .port selector)
    (d : Datapath c δ) (word : Word) :
    d.latch word i =
      { d with ports := d.ports.write (d.portNumber selector) word
               values := d.values.set i word i.isLt } := by
  change c.wiring.slots[i].kind = _ at h
  unfold latch
  rw [h]

theorem latch_adder {lhs rhs : Fin c.size} (h : (c.wiring.slots.get i).kind = .adder lhs rhs)
    (d : Datapath c δ) (word : Word) : d.latch word i = d := by
  change c.wiring.slots[i].kind = _ at h
  unfold latch
  rw [h]

theorem latch_subtractor {lhs rhs : Fin c.size}
    (h : (c.wiring.slots.get i).kind = .subtractor lhs rhs) (d : Datapath c δ) (word : Word) :
    d.latch word i = d := by
  change c.wiring.slots[i].kind = _ at h
  unfold latch
  rw [h]

theorem drivePhase_eq (d : Datapath c δ) (i : Fin c.size) :
    d.drivePhase i =
      if (d.active.get i).drive then
        (if (d.active.get i).incr then d.increment i else d).drive i
      else if (d.active.get i).incr then d.increment i else d :=
  rfl

theorem latchPhase_eq (word : Word) (d : Datapath c δ) (i : Fin c.size) :
    d.latchPhase word i = if (d.active.get i).latch then d.latch word i else d :=
  rfl

omit [Device δ] in
theorem resetPhase_eq (d : Datapath c δ) (i : Fin c.size) :
    d.resetPhase i =
      if (d.active.get i).reset then { d with values := d.values.set i 0 i.isLt } else d :=
  rfl

theorem drivePhase_of_incr {d : Datapath c δ} (hincr : (d.active.get i).incr = true)
    (hdrive : (d.active.get i).drive = false) : d.drivePhase i = d.increment i := by
  rw [drivePhase_eq]
  simp only [hincr, hdrive, Bool.false_eq_true, if_false, if_true]

theorem drivePhase_of_drive {d : Datapath c δ} (hincr : (d.active.get i).incr = false)
    (hdrive : (d.active.get i).drive = true) : d.drivePhase i = d.drive i := by
  rw [drivePhase_eq]
  simp only [hincr, hdrive, Bool.false_eq_true, if_false, if_true]

theorem drivePhase_of_both {d : Datapath c δ} (hincr : (d.active.get i).incr = true)
    (hdrive : (d.active.get i).drive = true) : d.drivePhase i = (d.increment i).drive i := by
  rw [drivePhase_eq]
  simp only [hincr, hdrive, if_true]

theorem latchPhase_of_latch {d : Datapath c δ} (h : (d.active.get i).latch = true) (word : Word) :
    d.latchPhase word i = d.latch word i := by
  rw [latchPhase_eq, if_pos h]

omit [Device δ] in
theorem resetPhase_of_reset {d : Datapath c δ} (h : (d.active.get i).reset = true) :
    d.resetPhase i = { d with values := d.values.set i 0 i.isLt } := by
  rw [resetPhase_eq, if_pos h]

end Visits

/-- What only asserting changes. -/
def control (d : Datapath c δ) : Vector Lines c.size × Bool := (d.active, d.halting)

theorem increment_frame (d : Datapath c δ) (i : Fin c.size) :
    ∃ values, d.increment i = { d with values } := by
  unfold increment
  dsimp only
  split <;> try split
  all_goals exact ⟨_, rfl⟩

theorem control_increment (d : Datapath c δ) (i : Fin c.size) :
    (d.increment i).control = d.control := by
  obtain ⟨values, h⟩ := d.increment_frame i
  rw [h]
  rfl

theorem bus_increment (d : Datapath c δ) (i : Fin c.size) : (d.increment i).bus = d.bus := by
  obtain ⟨values, h⟩ := d.increment_frame i
  rw [h]

theorem control_resetPhase (d : Datapath c δ) (i : Fin c.size) :
    (d.resetPhase i).control = d.control := by
  unfold resetPhase
  split <;> rfl

theorem active_resetPhase (d : Datapath c δ) (i : Fin c.size) :
    (d.resetPhase i).active = d.active :=
  congrArg Prod.fst (control_resetPhase d i)

theorem bus_resetPhase (d : Datapath c δ) (i : Fin c.size) : (d.resetPhase i).bus = d.bus := by
  unfold resetPhase
  split <;> rfl

variable [Device δ]

theorem control_drive (d : Datapath c δ) (i : Fin c.size) : (d.drive i).control = d.control := by
  unfold drive
  split <;> rfl

theorem control_latch (d : Datapath c δ) (word : Word) (i : Fin c.size) :
    (d.latch word i).control = d.control := by
  unfold latch
  split <;> rfl

theorem bus_latch (d : Datapath c δ) (word : Word) (i : Fin c.size) :
    (d.latch word i).bus = d.bus := by
  unfold latch
  split <;> rfl

theorem control_drivePhase (d : Datapath c δ) (i : Fin c.size) :
    (d.drivePhase i).control = d.control := by
  have counted : (if d.active[i].incr then d.increment i else d).control = d.control := by
    split
    · exact control_increment d i
    · rfl
  unfold drivePhase
  dsimp only
  split
  · rw [control_drive, counted]
  · exact counted

theorem active_drivePhase (d : Datapath c δ) (i : Fin c.size) :
    (d.drivePhase i).active = d.active :=
  congrArg Prod.fst (control_drivePhase d i)

theorem control_latchPhase (d : Datapath c δ) (word : Word) (i : Fin c.size) :
    (d.latchPhase word i).control = d.control := by
  unfold latchPhase
  split
  · exact control_latch d word i
  · rfl

theorem active_latchPhase (d : Datapath c δ) (word : Word) (i : Fin c.size) :
    (d.latchPhase word i).active = d.active :=
  congrArg Prod.fst (control_latchPhase d word i)

theorem bus_latchPhase (d : Datapath c δ) (word : Word) (i : Fin c.size) :
    (d.latchPhase word i).bus = d.bus := by
  unfold latchPhase
  split
  · exact bus_latch d word i
  · rfl

theorem bus_drivePhase_of_off {d : Datapath c δ} {i : Fin c.size}
    (hi : (d.active.get i).drive = false) : (d.drivePhase i).bus = d.bus := by
  rw [drivePhase_eq]
  simp only [hi, Bool.false_eq_true, if_false]
  split
  · exact bus_increment d i
  · rfl

omit [Device δ] in
theorem foldl_keep {α : Type} {read : Datapath c δ → α}
    {visit : Datapath c δ → Fin c.size → Datapath c δ} (keep : ∀ d i, read (visit d i) = read d)
    (slots : List (Fin c.size)) (d : Datapath c δ) : read (slots.foldl visit d) = read d := by
  induction slots generalizing d with
  | nil => rfl
  | cons i rest ih => exact (ih (visit d i)).trans (keep d i)

omit [Device δ] in
theorem foldl_eq_filter {visit : Datapath c δ → Fin c.size → Datapath c δ}
    (takesPart : Lines → Bool) (keep : ∀ d i, (visit d i).active = d.active)
    (skip : ∀ d i, takesPart (d.active.get i) = false → visit d i = d) (slots : List (Fin c.size))
    (d : Datapath c δ) :
    slots.foldl visit d = (slots.filter fun i => takesPart (d.active.get i)).foldl visit d := by
  induction slots generalizing d with
  | nil => rfl
  | cons i rest ih =>
    rw [List.foldl_cons, ih, keep]
    by_cases hi : takesPart (d.active.get i) = true
    · rw [List.filter_cons_of_pos (by simpa using hi), List.foldl_cons]
    · have hskip := skip d i (by simpa using hi)
      rw [List.filter_cons_of_neg (by simpa using hi), hskip]

def taking (active : Vector Lines c.size) (takesPart : Lines → Bool) : List (Fin c.size) :=
  (List.finRange c.size).filter fun i => takesPart (active.get i)

theorem drivePhase_skip (d : Datapath c δ) (i : Fin c.size)
    (h : ((d.active.get i).incr || (d.active.get i).drive) = false) : d.drivePhase i = d := by
  rw [Bool.or_eq_false_iff] at h
  rw [drivePhase_eq]
  simp only [h.1, h.2, Bool.false_eq_true, if_false]

theorem latchPhase_skip (word : Word) (d : Datapath c δ) (i : Fin c.size)
    (h : (d.active.get i).latch = false) : d.latchPhase word i = d := by
  rw [latchPhase_eq]
  simp only [h, Bool.false_eq_true, if_false]

omit [Device δ] in
theorem resetPhase_skip (d : Datapath c δ) (i : Fin c.size)
    (h : (d.active.get i).reset = false) :
    d.resetPhase i = d := by
  rw [resetPhase_eq]
  simp only [h, Bool.false_eq_true, if_false]

/-- The end of a cycle as visits of the slots that take part in each phase. -/
theorem endCycle_eq (d : Datapath c δ) :
    d.endCycle =
      (taking d.active (·.reset)).foldl resetPhase
        ((taking d.active (·.latch)).foldl
          (latchPhase
            (((taking d.active fun l => l.incr || l.drive).foldl drivePhase d).bus % c.wordSize))
          ((taking d.active fun l => l.incr || l.drive).foldl drivePhase d)) := by
  unfold endCycle
  simp only [Fin.foldl_eq_finRange_foldl]
  have drive := foldl_eq_filter (fun l => l.incr || l.drive) active_drivePhase
    drivePhase_skip (List.finRange c.size) d
  have latch := fun word (d : Datapath c δ) => foldl_eq_filter (·.latch)
    (fun d i => active_latchPhase d word i) (latchPhase_skip word) (List.finRange c.size) d
  have reset := fun (d : Datapath c δ) => foldl_eq_filter (·.reset)
    active_resetPhase resetPhase_skip (List.finRange c.size) d
  rw [reset, latch, drive]
  simp only [foldl_keep active_drivePhase, foldl_keep fun d i => active_latchPhase d _ i]
  rfl

theorem control_endCycle (d : Datapath c δ) : d.endCycle.control = d.control := by
  unfold endCycle
  simp only [Fin.foldl_eq_finRange_foldl]
  rw [foldl_keep control_resetPhase, foldl_keep fun d i => control_latchPhase d _ i,
    foldl_keep control_drivePhase]

theorem halting_endCycle (d : Datapath c δ) : d.endCycle.halting = d.halting :=
  congrArg Prod.snd (control_endCycle d)

/-- What a list of actions asserts. -/
structure Asserted (n : Nat) where
  active : Vector Lines n := Vector.replicate n Lines.none
  bus : Word := 0
  halting : Bool := false
deriving DecidableEq

def Asserted.and {n : Nat} (asserted : Asserted n) : Action n → Asserted n
  | .line slot signal =>
    { asserted with
      active := asserted.active.set slot ((asserted.active.get slot).insert signal) slot.isLt }
  | .halt => { asserted with halting := true }
  | .literal value => { asserted with bus := asserted.bus ||| value }

def withAsserted (d : Datapath c δ) (asserted : Asserted c.size) : Datapath c δ :=
  { d with active := asserted.active, bus := asserted.bus, halting := asserted.halting }

omit [Device δ] in
theorem withAsserted_assertAll (d : Datapath c δ) (actions : List (Action c.size))
    (asserted : Asserted c.size) :
    (d.withAsserted asserted).assertAll actions =
      d.withAsserted (actions.foldl Asserted.and asserted) := by
  induction actions generalizing asserted with
  | nil => rfl
  | cons a rest ih =>
    have first : (d.withAsserted asserted).assert a = d.withAsserted (asserted.and a) := by
      cases a <;> rfl
    have rest := ih (asserted.and a)
    rw [← first] at rest
    exact rest

end BusMachine.Datapath
