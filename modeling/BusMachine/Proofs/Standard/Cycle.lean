import BusMachine.Proofs.Datapath.Phase
import BusMachine.Proofs.Datapath.Soundness
import BusMachine.Proofs.Standard.Architecture
import BusMachine.Proofs.Standard.Transfer

/-!
A cycle of the standard datapath performs the transfer whose lines are asserted.
-/

namespace BusMachine.Standard

open Datapath

abbrev instructionSlot : Fin wiring.size := ⟨0, by decide⟩
abbrev tickSlot : Fin wiring.size := ⟨1, by decide⟩
abbrev pcSlot : Fin wiring.size := ⟨2, by decide⟩
abbrev addressSlot : Fin wiring.size := ⟨3, by decide⟩
abbrev memorySlot : Fin wiring.size := ⟨10, by decide⟩
abbrev portSlot : Fin wiring.size := ⟨11, by decide⟩

def Register.slot : Register → Fin wiring.size
  | .a => ⟨4, by decide⟩
  | .b => ⟨5, by decide⟩
  | .x => ⟨6, by decide⟩
  | .y => ⟨7, by decide⟩
  | .stackPtr => ⟨8, by decide⟩
  | .ioTarget => ⟨9, by decide⟩

def Operator.slot : Operator → Fin wiring.size
  | .plus => ⟨12, by decide⟩
  | .minus => ⟨13, by decide⟩

def Source.slot? : Source → Option (Fin wiring.size)
  | .nothing | .one => none
  | .pc => some pcSlot
  | .register r => some r.slot
  | .memory => some memorySlot
  | .port => some portSlot
  | .result op => some op.slot

/-- What is on the bus before any slot drives it. -/
def Source.literal : Source → Word
  | .one => 1
  | _ => 0

def Target.slot? : Target → Option (Fin wiring.size)
  | .nothing => none
  | .instruction => some instructionSlot
  | .pc => some pcSlot
  | .address => some addressSlot
  | .register r => some r.slot
  | .memory => some memorySlot
  | .port => some portSlot

def Transfer.linesAt (t : Transfer) (i : Fin wiring.size) : Lines where
  latch := t.target.slot? == some i
  drive := t.source.slot? == some i
  incr := i == tickSlot || (t.advance && i == pcSlot)
  reset := t.restart && i == tickSlot

def Transfer.asserted (t : Transfer) : Asserted wiring.size where
  active := Vector.ofFn t.linesAt
  bus := t.source.literal
  halting := t.halt

theorem drive_slots (source : Source) (advance : Bool) :
    ((List.finRange wiring.size).filter fun i =>
        (i == tickSlot || (advance && i == pcSlot)) || source.slot? == some i) =
      tickSlot :: (if advance then [pcSlot] else []) ++
        source.slot?.toList.filter fun i => !(advance && i == pcSlot) := by
  cases advance <;> cases source with
  | register r => cases r <;> decide
  | result op => cases op <;> decide
  | _ => decide

theorem latch_slots (target : Target) :
    ((List.finRange wiring.size).filter fun i => target.slot? == some i) =
      target.slot?.toList := by
  cases target with
  | register r => cases r <;> decide
  | _ => decide

theorem reset_slots (again : Bool) :
    ((List.finRange wiring.size).filter fun i => again && i == tickSlot) =
      if again then [tickSlot] else [] := by
  cases again <;> decide

variable {params : Parameters} {valid : params.Valid} {δ : Type}

theorem ofDatapath_eq (d : Datapath (circuit params valid) δ) :
    State.ofDatapath d =
      { instruction := d.values[instructionSlot]
        tick := d.values[tickSlot]
        pc := d.values[pcSlot]
        address := d.values[addressSlot]
        a := d.values[Register.a.slot]
        b := d.values[Register.b.slot]
        x := d.values[Register.x.slot]
        y := d.values[Register.y.slot]
        stackPtr := d.values[Register.stackPtr.slot]
        ioTarget := d.values[Register.ioTarget.slot]
        flags := d.flags
        memory := d.memory
        ports := d.ports } :=
  rfl

section Stored

variable (d : Datapath (circuit params valid) δ) (word : Word)

theorem ofDatapath_set_instruction :
    State.ofDatapath { d with values := d.values.set instructionSlot word } =
      { State.ofDatapath d with instruction := word } := by
  simp [ofDatapath_eq, Register.slot]

theorem ofDatapath_set_tick :
    State.ofDatapath { d with values := d.values.set tickSlot word } =
      { State.ofDatapath d with tick := word } := by
  simp [ofDatapath_eq, Register.slot]

theorem ofDatapath_set_pc :
    State.ofDatapath { d with values := d.values.set pcSlot word } =
      { State.ofDatapath d with pc := word } := by
  simp [ofDatapath_eq, Register.slot]

theorem ofDatapath_set_address :
    State.ofDatapath { d with values := d.values.set addressSlot word } =
      { State.ofDatapath d with address := word } := by
  simp [ofDatapath_eq, Register.slot]

theorem ofDatapath_set_register (r : Register) :
    State.ofDatapath { d with values := d.values.set r.slot word } =
      (State.ofDatapath d).set r word := by
  cases r <;> simp [ofDatapath_eq, Register.slot, State.set]

theorem ofDatapath_set_hidden {i : Fin wiring.size} (h : memorySlot ≤ i) :
    State.ofDatapath { d with values := d.values.set i word } = State.ofDatapath d := by
  have hi : 10 ≤ i.val := h
  have hne : ∀ j < 10, i.val ≠ j := by
    intro j hj
    omega
  simp [ofDatapath_eq, Register.slot, hne]

theorem get_ofDatapath (r : Register) : (State.ofDatapath d).get r = d.values[r.slot] := by
  cases r <;> rfl

end Stored

def countUp (advance : Bool) (d : Datapath (circuit params valid) δ) :
    Datapath (circuit params valid) δ :=
  if advance then (d.increment tickSlot).increment pcSlot else d.increment tickSlot

theorem ofDatapath_increment_tick (d : Datapath (circuit params valid) δ) :
    State.ofDatapath (d.increment tickSlot) = (State.ofDatapath d).count params.wordSize false := by
  have counted := increment_eq (i := tickSlot) rfl d
  rw [counted, ofDatapath_set_tick]
  rfl

theorem ofDatapath_increment_pc (d : Datapath (circuit params valid) δ) :
    State.ofDatapath (d.increment pcSlot) =
      { State.ofDatapath d with pc := ((State.ofDatapath d).pc + 1) % params.wordSize } := by
  have counted := increment_eq (i := pcSlot) rfl d
  rw [counted, ofDatapath_set_pc]
  rfl

theorem ofDatapath_countUp (advance : Bool) (d : Datapath (circuit params valid) δ) :
    State.ofDatapath (countUp advance d) = (State.ofDatapath d).count params.wordSize advance := by
  cases advance with
  | false => exact ofDatapath_increment_tick d
  | true =>
    show State.ofDatapath ((d.increment tickSlot).increment pcSlot) = _
    rw [ofDatapath_increment_pc, ofDatapath_increment_tick]
    rfl

theorem sound_countUp {d : Datapath (circuit params valid) δ} (h : d.Sound) (advance : Bool) :
    (countUp advance d).Sound := by
  cases advance with
  | false => exact h.increment tickSlot
  | true => exact (h.increment tickSlot).increment pcSlot

variable [Device δ]

def Source.visit (source : Source) (d : Datapath (circuit params valid) δ) :
    Datapath (circuit params valid) δ :=
  match source.slot? with
  | none => d
  | some i => d.drive i

theorem Source.slot?_ne_tick (source : Source) : source.slot? ≠ some tickSlot := by
  cases source with
  | register r => cases r <;> decide
  | result op => cases op <;> decide
  | _ => decide

theorem active_asserted (t : Transfer) (i : Fin wiring.size) :
    t.asserted.active.get i = t.linesAt i :=
  Vector.getElem_ofFn i.isLt

theorem foldl_drivePhase {t : Transfer} {d : Datapath (circuit params valid) δ}
    (hactive : d.active = t.asserted.active) :
    (taking d.active fun l => l.incr || l.drive).foldl drivePhase d =
      t.source.visit (countUp t.advance d) := by
  have lines : ∀ d' : Datapath (circuit params valid) δ, d'.control = d.control →
      ∀ i : Fin wiring.size, d'.active.get i = t.linesAt i := by
    intro d' hcontrol i
    have hsame : d'.active = d.active := congrArg Prod.fst hcontrol
    rw [hsame, hactive, active_asserted]
  have slots : (taking d.active fun l => l.incr || l.drive) =
      tickSlot :: (if t.advance then [pcSlot] else []) ++
        t.source.slot?.toList.filter fun i => !(t.advance && i == pcSlot) := by
    unfold taking
    simp only [lines d rfl]
    exact drive_slots t.source t.advance
  have notTick : ∀ i, t.source.slot? = some i → i ≠ tickSlot := by
    rintro i hsource rfl
    exact t.source.slot?_ne_tick hsource
  have hticked : (d.increment tickSlot).control = d.control := control_increment d tickSlot
  have ticked : d.drivePhase tickSlot = d.increment tickSlot := by
    apply drivePhase_of_incr
    · rw [lines d rfl]
      rfl
    · rw [lines d rfl]
      simpa [Transfer.linesAt] using t.source.slot?_ne_tick
  rw [slots]
  unfold Source.visit countUp
  cases hadvance : t.advance with
  | false =>
    cases hsource : t.source.slot? with
    | none => simpa using ticked
    | some i =>
      have hi := notTick i hsource
      have driven : (d.increment tickSlot).drivePhase i = (d.increment tickSlot).drive i := by
        apply drivePhase_of_drive
        · rw [lines _ hticked]
          simp [Transfer.linesAt, hadvance, hi]
        · rw [lines _ hticked]
          simp [Transfer.linesAt, hsource]
      simpa [ticked] using driven
  | true =>
    have counts : ((d.increment tickSlot).active.get pcSlot).incr = true := by
      rw [lines _ hticked]
      simp [Transfer.linesAt, hadvance]
    have drives : ((d.increment tickSlot).active.get pcSlot).drive =
        (t.source.slot? == some pcSlot) := by
      rw [lines _ hticked]
      rfl
    by_cases hpc : t.source.slot? = some pcSlot
    · have visited := drivePhase_of_both counts (by rw [drives, hpc]; rfl)
      simpa [ticked, hpc] using visited
    · have visited := drivePhase_of_incr counts (by rw [drives]; simpa using hpc)
      cases hsource : t.source.slot? with
      | none => simpa [ticked] using visited
      | some i =>
        have hi := notTick i hsource
        have hne : i ≠ pcSlot := by
          rintro rfl
          exact hpc hsource
        have hcounted : ((d.increment tickSlot).increment pcSlot).control = d.control :=
          (control_increment _ pcSlot).trans hticked
        have driven : ((d.increment tickSlot).increment pcSlot).drivePhase i =
            ((d.increment tickSlot).increment pcSlot).drive i := by
          apply drivePhase_of_drive
          · rw [lines _ hcounted]
            simp [Transfer.linesAt, hi, hne]
          · rw [lines _ hcounted]
            simp [Transfer.linesAt, hsource]
        simpa [ticked, visited, hne] using driven

omit [Device δ] in
theorem kind_register (r : Register) :
    (circuit params valid).wiring.slots[r.slot].kind = .register := by
  cases r <;> rfl

omit [Device δ] in
theorem address_lt {d : Datapath (circuit params valid) δ} (h : d.Sound) :
    (State.ofDatapath d).address < params.memorySize :=
  Nat.lt_of_lt_of_le (h.values_lt addressSlot) valid.wordSize_le_memorySize

omit [Device δ] in
theorem cell_address {d : Datapath (circuit params valid) δ} (h : d.Sound) :
    (d.cell (.single addressSlot)).val = (State.ofDatapath d).address :=
  Nat.mod_eq_of_lt (address_lt h)

omit [Device δ] in
theorem portNumber_ioTarget {d : Datapath (circuit params valid) δ} (h : d.Sound) :
    d.portNumber (.single Register.ioTarget.slot) = (State.ofDatapath d).ioTarget :=
  Nat.mod_eq_of_lt (h.values_lt Register.ioTarget.slot)

omit [Device δ] in
theorem memory_cell {d : Datapath (circuit params valid) δ} (h : d.Sound) :
    d.memory[d.cell (.single addressSlot)] =
      (State.ofDatapath d).word (State.ofDatapath d).address := by
  have hlt := address_lt h
  show d.memory[(d.cell (.single addressSlot)).val] = d.memory.getD _ 0
  simp only [cell_address h]
  simp [Vector.getD, hlt]

omit [Device δ] in
theorem memory_set_cell {d : Datapath (circuit params valid) δ} (h : d.Sound) (word : Word) :
    d.memory.set (d.cell (.single addressSlot)) word =
      d.memory.setIfInBounds (State.ofDatapath d).address word := by
  have hlt := address_lt h
  simp only [cell_address h]
  simp [Vector.set, Vector.setIfInBounds, Array.setIfInBounds, hlt]

theorem drive_result (op : Operator) (d : Datapath (circuit params valid) δ) :
    d.drive op.slot = d.putResult op.slot
      (op.result params.wordSize (State.ofDatapath d).a (State.ofDatapath d).b) := by
  have hpos : 0 < params.wordSize := valid.wordSize_pos
  cases op with
  | plus =>
    refine (drive_adder rfl d).trans ?_
    rw [Arithmetic.add_eq hpos valid.wordSize_le]
    rfl
  | minus =>
    refine (drive_subtractor rfl d).trans ?_
    rw [Arithmetic.sub_eq hpos valid.wordSize_le]
    rfl

theorem visit_source {d : Datapath (circuit params valid) δ} (h : d.Sound) {source : Source}
    (hbus : d.bus = source.literal) :
    State.ofDatapath (source.visit d) =
        (source.perform params.wordSize (State.ofDatapath d)).2 ∧
      (source.visit d).bus = (source.perform params.wordSize (State.ofDatapath d)).1 := by
  have empty : source.literal = 0 → ∀ word, d.bus ||| word = word := by
    intro hliteral word
    rw [hbus, hliteral, Nat.zero_or]
  cases source with
  | nothing => exact ⟨rfl, hbus⟩
  | one => exact ⟨rfl, hbus⟩
  | pc =>
    have driven : d.drive pcSlot = { d with bus := d.bus ||| d.values[pcSlot] } :=
      drive_register rfl d
    show State.ofDatapath (d.drive pcSlot) = _ ∧ (d.drive pcSlot).bus = _
    rw [driven]
    exact ⟨rfl, empty rfl _⟩
  | register r =>
    show State.ofDatapath (d.drive r.slot) = _ ∧ (d.drive r.slot).bus = (State.ofDatapath d).get r
    rw [drive_register (kind_register r), get_ofDatapath]
    exact ⟨rfl, empty rfl _⟩
  | memory =>
    have driven : d.drive memorySlot = d.put memorySlot d.memory[d.cell (.single addressSlot)] :=
      drive_memory rfl d
    show State.ofDatapath (d.drive memorySlot) = _ ∧ (d.drive memorySlot).bus = _
    rw [driven, memory_cell h]
    exact ⟨ofDatapath_set_hidden _ _ (Nat.le_refl _), empty rfl _⟩
  | port =>
    have number := portNumber_ioTarget h
    have driven : d.drive portSlot =
        { d with
          ports := (d.ports.read (d.portNumber (.single Register.ioTarget.slot))).2 }.put portSlot
            ((d.ports.read (d.portNumber (.single Register.ioTarget.slot))).1 %
              params.wordSize) := drive_port rfl d
    rw [number] at driven
    show State.ofDatapath (d.drive portSlot) = _ ∧ (d.drive portSlot).bus = _
    rw [driven]
    exact ⟨ofDatapath_set_hidden _ _ (by decide), empty rfl _⟩
  | result op =>
    have hidden : memorySlot ≤ op.slot := by cases op <;> decide
    show State.ofDatapath (d.drive op.slot) = _ ∧ (d.drive op.slot).bus = _
    rw [drive_result]
    refine ⟨?_, empty rfl _⟩
    have kept := ofDatapath_set_hidden { d with flags := (op.result params.wordSize
      (State.ofDatapath d).a (State.ofDatapath d).b).flags } (op.result params.wordSize
      (State.ofDatapath d).a (State.ofDatapath d).b).value hidden
    exact kept

theorem source_word_lt {d : Datapath (circuit params valid) δ} (h : d.Sound) (source : Source) :
    (source.perform params.wordSize (State.ofDatapath d)).1 < params.wordSize := by
  have hpos : 0 < params.wordSize := valid.wordSize_pos
  cases source with
  | nothing => exact hpos
  | one => exact valid.two_le_wordSize
  | pc => exact h.values_lt pcSlot
  | register r =>
    show (State.ofDatapath d).get r < _
    rw [get_ofDatapath]
    exact h.values_lt r.slot
  | memory =>
    show (State.ofDatapath d).word _ < _
    rw [← memory_cell h]
    exact h.memory_lt _
  | port => exact Nat.mod_lt _ hpos
  | result op => cases op <;> exact Nat.mod_lt _ hpos

def Target.visit (word : Word) (target : Target) (d : Datapath (circuit params valid) δ) :
    Datapath (circuit params valid) δ :=
  match target.slot? with
  | none => d
  | some i => d.latch word i

theorem visit_target {d : Datapath (circuit params valid) δ} (h : d.Sound) (word : Word)
    (target : Target) :
    State.ofDatapath (target.visit word d) = target.perform word (State.ofDatapath d) := by
  have register : ∀ i : Fin wiring.size, (circuit params valid).wiring.slots[i].kind = .register →
      d.latch word i = { d with values := d.values.set i word } :=
    fun i hkind => latch_register hkind d word
  cases target with
  | nothing => rfl
  | instruction =>
    show State.ofDatapath (d.latch word instructionSlot) = _
    rw [register _ rfl]
    exact ofDatapath_set_instruction d word
  | pc =>
    show State.ofDatapath (d.latch word pcSlot) = _
    rw [register _ rfl]
    exact ofDatapath_set_pc d word
  | address =>
    show State.ofDatapath (d.latch word addressSlot) = _
    rw [register _ rfl]
    exact ofDatapath_set_address d word
  | register r =>
    show State.ofDatapath (d.latch word r.slot) = _
    rw [register _ (kind_register r)]
    exact ofDatapath_set_register d word r
  | memory =>
    have latched : d.latch word memorySlot =
        { d with memory := d.memory.set (d.cell (.single addressSlot)) word
                 values := d.values.set memorySlot word } := latch_memory rfl d word
    show State.ofDatapath (d.latch word memorySlot) = _
    rw [latched, memory_set_cell h]
    have kept := ofDatapath_set_hidden
      { d with memory := d.memory.setIfInBounds (State.ofDatapath d).address word } word
      (Nat.le_refl memorySlot.val)
    exact kept
  | port =>
    have latched : d.latch word portSlot =
        { d with ports := d.ports.write (d.portNumber (.single Register.ioTarget.slot)) word
                 values := d.values.set portSlot word } := latch_port rfl d word
    show State.ofDatapath (d.latch word portSlot) = _
    rw [latched, portNumber_ioTarget h]
    have hidden : memorySlot ≤ portSlot := by decide
    have kept := ofDatapath_set_hidden
      { d with ports := d.ports.write (State.ofDatapath d).ioTarget word } word hidden
    exact kept

theorem foldl_latchPhase {t : Transfer} {d : Datapath (circuit params valid) δ}
    (hactive : d.active = t.asserted.active) (word : Word) :
    (taking d.active (·.latch)).foldl (latchPhase word) d = t.target.visit word d := by
  have lines : ∀ i : Fin wiring.size, (d.active.get i).latch = (t.target.slot? == some i) := by
    intro i
    rw [hactive, active_asserted]
    rfl
  have slots : taking d.active (·.latch) = t.target.slot?.toList := by
    unfold taking
    simp only [lines]
    exact latch_slots t.target
  rw [slots]
  unfold Target.visit
  cases htarget : t.target.slot? with
  | none => rfl
  | some i =>
    apply latchPhase_of_latch
    rw [lines, htarget]
    exact beq_self_eq_true _

omit [Device δ] in
theorem foldl_resetPhase {t : Transfer} {d : Datapath (circuit params valid) δ}
    (hactive : d.active = t.asserted.active) :
    State.ofDatapath ((taking d.active (·.reset)).foldl resetPhase d) =
      (State.ofDatapath d).restart t.restart := by
  have lines : ∀ i : Fin wiring.size, (d.active.get i).reset = (t.restart && i == tickSlot) := by
    intro i
    rw [hactive, active_asserted]
    rfl
  have slots : taking d.active (·.reset) = if t.restart then [tickSlot] else [] := by
    unfold taking
    simp only [lines]
    exact reset_slots t.restart
  rw [slots]
  cases hrestart : t.restart with
  | false => rfl
  | true =>
    have visited : d.resetPhase tickSlot = { d with values := d.values.set tickSlot 0 } := by
      apply resetPhase_of_reset
      rw [lines, hrestart]
      rfl
    show State.ofDatapath (d.resetPhase tickSlot) = _
    rw [visited]
    exact ofDatapath_set_tick d 0

theorem sound_visit_source {d : Datapath (circuit params valid) δ} (h : d.Sound)
    (source : Source) : (source.visit d).Sound := by
  unfold Source.visit
  split
  · exact h
  · exact h.drive _

/-- A cycle whose lines are those of a transfer performs it. -/
theorem ofDatapath_endCycle {d : Datapath (circuit params valid) δ} (h : d.Sound) {t : Transfer}
    (hactive : d.active = t.asserted.active) (hbus : d.bus = t.source.literal) :
    State.ofDatapath d.endCycle = t.perform params.wordSize (State.ofDatapath d) := by
  have counted := sound_countUp h t.advance
  have busCounted : (countUp t.advance d).bus = t.source.literal := by
    unfold countUp
    split
    · rw [bus_increment, bus_increment, hbus]
    · rw [bus_increment, hbus]
  have ⟨hstate, hword⟩ := visit_source counted busCounted
  have word_lt := source_word_lt counted t.source
  have driven := sound_visit_source counted t.source
  have activeDriven : (t.source.visit (countUp t.advance d)).active = d.active := by
    rw [← foldl_drivePhase hactive]
    exact foldl_keep active_drivePhase _ d
  rw [endCycle_eq, foldl_drivePhase hactive, hword, Nat.mod_eq_of_lt word_lt]
  rw [Transfer.perform_eq, ← ofDatapath_countUp, ← hstate]
  generalize (t.source.perform params.wordSize (State.ofDatapath (countUp t.advance d))).1 = word
  generalize t.source.visit (countUp t.advance d) = d1 at *
  have latched := foldl_latchPhase (activeDriven.trans hactive) word
  have activeLatched : (t.target.visit word d1).active = d1.active := by
    rw [← latched]
    exact foldl_keep (fun d i => active_latchPhase d word i) _ d1
  have cleared := foldl_resetPhase ((activeLatched.trans activeDriven).trans hactive)
  rw [activeLatched, activeDriven, visit_target driven] at cleared
  rw [activeDriven] at latched
  rw [latched]
  exact cleared

end BusMachine.Standard
