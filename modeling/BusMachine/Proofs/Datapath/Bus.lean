import BusMachine.Proofs.Datapath.Phase
import BusMachine.Proofs.Datapath.Soundness

/-!
The bus under a single driver. Words that are driven together are combined by OR and may reach the
word size, so the bus is only known to hold a word in a cycle that has one source for it: a slot
that drives or a literal.
-/

namespace BusMachine

def Action.isSource {n : Nat} : Action n → Bool
  | .line _ .drive | .literal _ => true
  | _ => false

def NamedAction.isSource : NamedAction → Bool
  | .line _ .drive | .literal _ => true
  | _ => false

def NamedAction.literalBelow (bound : Nat) : NamedAction → Bool
  | .literal value => value < bound
  | _ => true

namespace Sequencer

variable {w : Wiring}

theorem resolveAction_single (hw : ∀ entry ∈ w.names, ∃ slot, entry.2 = .single slot)
    {named : NamedAction} {part : List (Action w.size)}
    (h : resolveAction w named = .ok part) :
    ∃ a, part = [a] ∧ a.isSource = named.isSource ∧
      ∀ value, a = .literal value → named = .literal value := by
  cases named with
  | halt =>
    cases h
    exact ⟨.halt, rfl, rfl, by simp⟩
  | literal value =>
    cases h
    exact ⟨.literal value, rfl, rfl, by simp⟩
  | line name signal =>
    simp only [resolveAction] at h
    split at h
    · cases h
    · rename_i place hplace
      obtain ⟨_, -, h⟩ := bind_eq_ok_iff.mp h
      obtain ⟨before, after, hnames, -⟩ := List.lookup_eq_some_iff.mp hplace
      obtain ⟨slot, rfl⟩ := hw (name, place) (by simp [hnames])
      cases h
      refine ⟨.line slot signal, rfl, ?_, by simp⟩
      cases signal <;> rfl

theorem resolveStep_single (hw : ∀ entry ∈ w.names, ∃ slot, entry.2 = .single slot)
    {step : List NamedAction} {actions : List (Action w.size)}
    (h : resolveStep w step = .ok actions) :
    actions.countP Action.isSource = step.countP NamedAction.isSource ∧
      ∀ value, .literal value ∈ actions → .literal value ∈ step := by
  obtain ⟨parts, hparts, rfl⟩ := resolveStep_ok_iff.mp h
  clear h
  induction hparts with
  | nil => simp
  | cons hfirst _ ih =>
    obtain ⟨a, rfl, hsource, hliteral⟩ := resolveAction_single hw hfirst
    refine ⟨?_, fun value hvalue => ?_⟩
    · simp [List.countP_cons, ih.1, hsource]
    · simp only [List.flatten_cons, List.cons_append, List.nil_append, List.mem_cons] at hvalue
      obtain heq | hmem := hvalue
      · rw [hliteral value heq.symm]
        exact List.mem_cons_self
      · exact List.mem_cons_of_mem _ (ih.2 value hmem)

end Sequencer

namespace Datapath

variable {c : Circuit} {δ : Type}

/-- Either the bus holds a word and nothing will be driven any more, or it is empty and at most one
slot will drive it. -/
def Lone (d : Datapath c δ) : Prop :=
  (d.bus < c.wordSize ∧ ∀ i : Fin c.size, (d.active.get i).drive = false) ∨
    (d.bus = 0 ∧ ∃ only : Fin c.size, ∀ i : Fin c.size, (d.active.get i).drive = true → i = only)

/-- Nothing is on the bus and nothing will be driven. -/
def Silent (d : Datapath c δ) : Prop :=
  d.bus = 0 ∧ ∀ i : Fin c.size, (d.active.get i).drive = false

theorem silent_beginCycle (d : Datapath c δ) : d.beginCycle.Silent :=
  ⟨rfl, fun i => by simp [beginCycle, Lines.none, Vector.get]⟩

theorem Silent.lone {d : Datapath c δ} (h : d.Silent) : d.Lone :=
  .inl ⟨h.1 ▸ c.wordSize_pos, h.2⟩

theorem drive_assert_line (d : Datapath c δ) (slot i : Fin c.size) (signal : Signal) :
    ((d.assert (.line slot signal)).active.get i).drive =
      (decide (slot = i ∧ signal = .drive) || (d.active.get i).drive) := by
  show ((d.active.set slot ((d.active.get slot).insert signal) slot.isLt).get i).drive = _
  rw [get_set]
  by_cases hi : slot = i
  · subst hi
    cases signal <;> simp [Lines.insert]
  · simp [hi]

theorem Lone.assert {d : Datapath c δ} (h : d.Lone) {a : Action c.size}
    (ha : a.isSource = false) : (d.assert a).Lone := by
  cases a with
  | halt => exact h
  | literal value => cases ha
  | line slot signal =>
    have hsignal : signal ≠ .drive := by
      rintro rfl
      cases ha
    unfold Lone
    simp only [drive_assert_line, hsignal, and_false, decide_false, Bool.false_or]
    exact h

theorem Silent.assert {d : Datapath c δ} (h : d.Silent) {a : Action c.size}
    (ha : a.isSource = false) : (d.assert a).Silent := by
  cases a with
  | halt => exact h
  | literal value => cases ha
  | line slot signal =>
    have hsignal : signal ≠ .drive := by
      rintro rfl
      cases ha
    refine ⟨h.1, fun i => ?_⟩
    rw [drive_assert_line, h.2 i]
    simp only [hsignal, and_false, decide_false, Bool.false_or]

theorem Silent.lone_assert {d : Datapath c δ} (h : d.Silent) {a : Action c.size}
    (ha : ∀ value, a = .literal value → value < c.wordSize) : (d.assert a).Lone := by
  cases a with
  | halt => exact h.lone
  | literal value =>
    refine .inl ⟨?_, h.2⟩
    show d.bus ||| value < c.wordSize
    rw [h.1, Nat.zero_or]
    exact ha value rfl
  | line slot signal =>
    refine .inr ⟨h.1, slot, fun i hi => ?_⟩
    rw [drive_assert_line, h.2 i, Bool.or_false, decide_eq_true_eq] at hi
    exact hi.1.symm

theorem Lone.assertAll {actions : List (Action c.size)}
    (hactions : actions.countP Action.isSource = 0) {d : Datapath c δ} (h : d.Lone) :
    (d.assertAll actions).Lone := by
  induction actions generalizing d with
  | nil => exact h
  | cons a rest ih =>
    rw [List.countP_eq_zero] at hactions
    have ha : a.isSource = false := by simpa using hactions a List.mem_cons_self
    have hrest : rest.countP Action.isSource = 0 :=
      List.countP_eq_zero.mpr fun b hb => hactions b (List.mem_cons_of_mem _ hb)
    exact ih hrest (h.assert ha)

theorem Silent.assertAll {actions : List (Action c.size)}
    (hactions : actions.countP Action.isSource ≤ 1)
    (hliteral : ∀ value, .literal value ∈ actions → value < c.wordSize) {d : Datapath c δ}
    (h : d.Silent) : (d.assertAll actions).Lone := by
  induction actions generalizing d with
  | nil => exact h.lone
  | cons a rest ih =>
    rw [List.countP_cons] at hactions
    by_cases ha : a.isSource = true
    · have hrest : rest.countP Action.isSource = 0 := by
        rw [if_pos ha] at hactions
        omega
      have hvalue : ∀ value, a = .literal value → value < c.wordSize := by
        rintro value rfl
        exact hliteral value List.mem_cons_self
      exact (h.lone_assert hvalue).assertAll hrest
    · have hrest : rest.countP Action.isSource ≤ 1 := by omega
      have hvalue : ∀ value, .literal value ∈ rest → value < c.wordSize :=
        fun value hmem => hliteral value (List.mem_cons_of_mem _ hmem)
      exact ih hrest hvalue (h.assert (by simpa using ha))

variable [Device δ]

theorem bus_drive_lt {d : Datapath c δ} (h : d.Sound) (hbus : d.bus = 0) (i : Fin c.size) :
    (d.drive i).bus < c.wordSize := by
  have hw := c.wordSize_pos
  unfold drive
  split
  · show d.bus ||| d.values[i] < c.wordSize
    rw [hbus, Nat.zero_or]
    exact h.values_lt i
  · rename_i address _
    show d.bus ||| d.memory[d.cell address] < c.wordSize
    rw [hbus, Nat.zero_or]
    exact h.memory_lt _
  · rename_i selector _
    show d.bus ||| (d.ports.read (d.portNumber selector)).1 % c.wordSize < c.wordSize
    rw [hbus, Nat.zero_or]
    exact Nat.mod_lt _ hw
  · rename_i lhs rhs _
    show d.bus ||| (Arithmetic.add c.wordSize d.values[lhs] d.values[rhs]).value < c.wordSize
    rw [hbus, Nat.zero_or]
    exact Arithmetic.add_value_lt hw _ _
  · rename_i lhs rhs _
    show d.bus ||| (Arithmetic.sub c.wordSize d.values[lhs] d.values[rhs]).value < c.wordSize
    rw [hbus, Nat.zero_or]
    exact Arithmetic.sub_value_lt hw _ _

theorem Sound.drivePhase {d : Datapath c δ} (h : d.Sound) (i : Fin c.size) :
    (d.drivePhase i).Sound :=
  (steps_drivePhase d i).sound h

theorem bus_foldl_drivePhase {slots : List (Fin c.size)} {d : Datapath c δ}
    (hoff : ∀ i ∈ slots, (d.active.get i).drive = false) :
    (slots.foldl Datapath.drivePhase d).bus = d.bus := by
  induction slots generalizing d with
  | nil => rfl
  | cons i rest ih =>
    have hi := hoff i List.mem_cons_self
    have hrest : ∀ j ∈ rest, ((d.drivePhase i).active.get j).drive = false := fun j hj => by
      rw [active_drivePhase]
      exact hoff j (List.mem_cons_of_mem _ hj)
    rw [List.foldl_cons, ih hrest, bus_drivePhase_of_off hi]

theorem bus_lt_of_only {slots : List (Fin c.size)} (hnodup : slots.Nodup) {d : Datapath c δ}
    (h : d.Sound) (hbus : d.bus = 0) {only : Fin c.size}
    (honly : ∀ i ∈ slots, (d.active.get i).drive = true → i = only) :
    (slots.foldl Datapath.drivePhase d).bus < c.wordSize := by
  induction slots generalizing d with
  | nil =>
    rw [List.foldl_nil, hbus]
    exact c.wordSize_pos
  | cons i rest ih =>
    rw [List.nodup_cons] at hnodup
    rw [List.foldl_cons]
    by_cases hi : (d.active.get i).drive = true
    · have hoff : ∀ j ∈ rest, ((d.drivePhase i).active.get j).drive = false := fun j hj => by
        rw [active_drivePhase]
        by_contra hdrive
        have hj' := honly j (List.mem_cons_of_mem _ hj) (by simpa using hdrive)
        rw [hj', ← honly i List.mem_cons_self hi] at hj
        exact hnodup.1 hj
      rw [bus_foldl_drivePhase hoff, drivePhase_eq]
      simp only [hi, if_true]
      split
      · exact bus_drive_lt (h.increment i) ((bus_increment d i).trans hbus) i
      · exact bus_drive_lt h hbus i
    · have hsame := bus_drivePhase_of_off (d := d) (i := i) (by simpa using hi)
      refine ih hnodup.2 (h.drivePhase i) (hsame.trans hbus) fun j hj hdrive => ?_
      rw [active_drivePhase] at hdrive
      exact honly j (List.mem_cons_of_mem _ hj) hdrive

theorem bus_endCycle (d : Datapath c δ) :
    d.endCycle.bus = ((List.finRange c.size).foldl Datapath.drivePhase d).bus := by
  unfold endCycle
  simp only [Fin.foldl_eq_finRange_foldl]
  rw [foldl_keep bus_resetPhase, foldl_keep fun d i => bus_latchPhase d _ i]

theorem Lone.bus_endCycle_lt {d : Datapath c δ} (hlone : d.Lone) (h : d.Sound) :
    d.endCycle.bus < c.wordSize := by
  rw [bus_endCycle]
  obtain ⟨hbus, hoff⟩ | ⟨hbus, only, honly⟩ := hlone
  · rw [bus_foldl_drivePhase fun i _ => hoff i]
    exact hbus
  · exact bus_lt_of_only (List.nodup_finRange _) h hbus fun i _ => honly i

theorem bus_cycle_lt {set : InstructionSet} {microcode : List NamedRoutine}
    {q : Sequencer c.wiring} (hq : Sequencer.ofMicrocode c.wiring set microcode = .ok q)
    {d : Datapath c δ} (h : d.Sound)
    (hsource : (q.actions d.values[q.instruction] d.values[q.tick] d.flags).countP
      Action.isSource ≤ 1)
    (hliteral : ∀ value, .literal value ∈
      q.actions d.values[q.instruction] d.values[q.tick] d.flags → value < c.wordSize) :
    (q.cycle d).2.bus < c.wordSize := by
  have hsound := (steps_asserted hq d).sound h
  have hlone := ((silent_beginCycle d).assertAll hsource hliteral).assert
    (a := .line q.tick .incr) rfl
  exact hlone.bus_endCycle_lt hsound

end Datapath

end BusMachine
