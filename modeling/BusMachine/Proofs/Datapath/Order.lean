import BusMachine.Proofs.Datapath.Phase
import BusMachine.Proofs.Datapath.Soundness

/-!
The order in which a cycle visits the slots. If at most one slot drives the bus and at most one
takes it over, and no slot counts that the driving one reads, every order has the same outcome, down
to the sequence of accesses to the ports.
-/

namespace BusMachine

/-- A word that was read from a port or written to it. -/
inductive PortAccess where
  | read (port word : Word)
  | write (port word : Word)
deriving DecidableEq, Repr

/-- The ports after an access, if a read returns the word that it is said to. -/
def Ports.perform? {δ : Type} [Device δ] (ports : Ports δ) : PortAccess → Option (Ports δ)
  | .read port word => if (ports.read port).1 = word then some (ports.read port).2 else none
  | .write port word => some (ports.write port word)

namespace Datapath

variable {c : Circuit} {δ : Type} [Device δ]

def driveAccess (d : Datapath c δ) (i : Fin c.size) : List PortAccess :=
  match (c.wiring.slots.get i).kind with
  | .port selector =>
    [.read (d.portNumber selector) (d.ports.read (d.portNumber selector)).1]
  | _ => []

omit [Device δ] in
def latchAccess (d : Datapath c δ) (word : Word) (i : Fin c.size) : List PortAccess :=
  match (c.wiring.slots.get i).kind with
  | .port selector => [.write (d.portNumber selector) word]
  | _ => []

def count (d : Datapath c δ) (i : Fin c.size) : Datapath c δ :=
  if (d.active.get i).incr then d.increment i else d

def driveNoting (s : Datapath c δ × List PortAccess) (i : Fin c.size) :
    Datapath c δ × List PortAccess :=
  (s.1.drivePhase i, s.2 ++ if (s.1.active.get i).drive then (s.1.count i).driveAccess i else [])

def latchNoting (word : Word) (s : Datapath c δ × List PortAccess) (i : Fin c.size) :
    Datapath c δ × List PortAccess :=
  (s.1.latchPhase word i, s.2 ++ if (s.1.active.get i).latch then s.1.latchAccess word i else [])

/-- The end of a cycle that visits slots in an order, with the accesses to ports. -/
def endCycleBy (order : List (Fin c.size)) (d : Datapath c δ) : Datapath c δ × List PortAccess :=
  let driven := order.foldl driveNoting (d, [])
  let latched := order.foldl (latchNoting (driven.1.bus % c.wordSize)) driven
  (order.foldl resetPhase latched.1, latched.2)

def traffic (d : Datapath c δ) : List PortAccess := (d.endCycleBy (List.finRange c.size)).2

theorem foldl_driveNoting (order : List (Fin c.size)) (s : Datapath c δ × List PortAccess) :
    (order.foldl driveNoting s).1 = order.foldl drivePhase s.1 := by
  induction order generalizing s with
  | nil => rfl
  | cons i rest ih => exact ih (driveNoting s i)

theorem foldl_latchNoting (word : Word) (order : List (Fin c.size))
    (s : Datapath c δ × List PortAccess) :
    (order.foldl (latchNoting word) s).1 = order.foldl (latchPhase word) s.1 := by
  induction order generalizing s with
  | nil => rfl
  | cons i rest ih => exact ih (latchNoting word s i)

theorem endCycle_eq_endCycleBy (d : Datapath c δ) :
    d.endCycle = (d.endCycleBy (List.finRange c.size)).1 := by
  unfold endCycle endCycleBy
  simp only [Fin.foldl_eq_finRange_foldl, foldl_latchNoting, foldl_driveNoting]

omit [Device δ] in
theorem ports_increment (d : Datapath c δ) (i : Fin c.size) : (d.increment i).ports = d.ports := by
  obtain ⟨values, h⟩ := d.increment_frame i
  rw [h]

theorem ports_drive (d : Datapath c δ) (i : Fin c.size) :
    (d.driveAccess i).foldlM Ports.perform? d.ports = some (d.drive i).ports := by
  unfold driveAccess
  cases hkind : (c.wiring.slots.get i).kind with
  | register => rw [drive_register hkind]; rfl
  | memory address => rw [drive_memory hkind]; rfl
  | port selector =>
    have answered : d.ports.perform? (.read (d.portNumber selector)
        (d.ports.read (d.portNumber selector)).1) =
          some (d.ports.read (d.portNumber selector)).2 := if_pos rfl
    dsimp only
    rw [drive_port hkind, List.foldlM_cons, answered]
    rfl
  | adder lhs rhs => rw [drive_adder hkind]; rfl
  | subtractor lhs rhs => rw [drive_subtractor hkind]; rfl

theorem ports_latch (d : Datapath c δ) (word : Word) (i : Fin c.size) :
    (d.latchAccess word i).foldlM Ports.perform? d.ports = some (d.latch word i).ports := by
  unfold latchAccess
  cases hkind : (c.wiring.slots.get i).kind with
  | register => rw [latch_register hkind]; rfl
  | memory address => rw [latch_memory hkind]; rfl
  | port selector => rw [latch_port hkind]; rfl
  | adder lhs rhs => rw [latch_adder hkind]; rfl
  | subtractor lhs rhs => rw [latch_subtractor hkind]; rfl

/-- The accesses that were noted lead from the ports at the start to those of now. -/
def Accounted (ports : Ports δ) (s : Datapath c δ × List PortAccess) : Prop :=
  s.2.foldlM Ports.perform? ports = some s.1.ports

theorem Accounted.driveNoting {ports : Ports δ} {s : Datapath c δ × List PortAccess}
    (h : Accounted ports s) (i : Fin c.size) : Accounted ports (driveNoting s i) := by
  have counted : (s.1.count i).ports = s.1.ports := by
    unfold count
    split
    · exact ports_increment s.1 i
    · rfl
  unfold Accounted at h
  unfold Accounted Datapath.driveNoting
  dsimp only
  rw [List.foldlM_append, h, ← counted]
  by_cases hdrive : (s.1.active.get i).drive = true
  · rw [if_pos hdrive, drivePhase_eq, if_pos hdrive]
    exact ports_drive (s.1.count i) i
  · rw [if_neg hdrive, drivePhase_eq, if_neg hdrive]
    rfl

theorem Accounted.latchNoting {ports : Ports δ} {s : Datapath c δ × List PortAccess}
    (h : Accounted ports s) (word : Word) (i : Fin c.size) :
    Accounted ports (latchNoting word s i) := by
  unfold Accounted at h
  unfold Accounted Datapath.latchNoting
  dsimp only
  rw [List.foldlM_append, h, latchPhase_eq]
  by_cases hlatch : (s.1.active.get i).latch = true
  · rw [if_pos hlatch, if_pos hlatch]
    exact ports_latch s.1 word i
  · rw [if_neg hlatch, if_neg hlatch]
    rfl

omit [Device δ] in
theorem ports_resetPhase (d : Datapath c δ) (i : Fin c.size) :
    (d.resetPhase i).ports = d.ports := by
  unfold resetPhase
  split <;> rfl

theorem ports_endCycle (d : Datapath c δ) :
    d.traffic.foldlM Ports.perform? d.ports = some d.endCycle.ports := by
  have start : Accounted d.ports (d, []) := rfl
  have driven : Accounted d.ports ((List.finRange c.size).foldl driveNoting (d, [])) :=
    List.foldlRecOn _ _ start fun _ h i _ => h.driveNoting i
  have latched : ∀ word, Accounted d.ports ((List.finRange c.size).foldl (latchNoting word)
      ((List.finRange c.size).foldl driveNoting (d, []))) := fun word =>
    List.foldlRecOn _ _ driven fun _ h i _ => h.latchNoting word i
  rw [endCycle_eq_endCycleBy]
  exact (latched _).trans (congrArg some (foldl_keep ports_resetPhase _ _).symm)

end Datapath

/-- Asserted lines of a wiring that take effect in the same way in every order of the slots. -/
structure Wiring.Orderly (w : Wiring) (active : Vector Lines w.size) : Prop where
  drives : ∀ i j, (active.get i).drive = true → (active.get j).drive = true → i = j
  latches : ∀ i j, (active.get i).latch = true → (active.get j).latch = true → i = j
  counts : ∀ i, (active.get i).incr = true → (w.slots.get i).carryInto = none
  apart : ∀ i j, (active.get i).incr = true → (active.get j).drive = true →
    i ∉ (w.slots.get j).kind.reads

namespace Datapath

variable {c : Circuit} {δ : Type}

def setValue (d : Datapath c δ) (i : Fin c.size) (word : Word) : Datapath c δ :=
  { d.put i word with bus := d.bus }

theorem setValue_eq (d : Datapath c δ) (i : Fin c.size) (word : Word) :
    d.setValue i word = { d with values := d.values.set i word i.isLt } :=
  rfl

theorem setValue_comm {i j : Fin c.size} (hij : i ≠ j) (d : Datapath c δ) (x y : Word) :
    (d.setValue i x).setValue j y = (d.setValue j y).setValue i x := by
  simp only [setValue_eq]
  rw [Vector.set_comm x y (Fin.val_ne_of_ne hij)]

theorem get_setValue_of_ne {i j : Fin c.size} (hij : i ≠ j) (d : Datapath c δ) (word : Word) :
    (d.setValue i word).values.get j = d.values.get j := by
  rw [setValue_eq, get_set, if_neg hij]

theorem valueAt_setValue {i : Fin c.size} {place : Place c.size} (hi : i ∉ place.slots)
    (d : Datapath c δ) (word : Word) : (d.setValue i word).valueAt place = d.valueAt place := by
  cases place with
  | single slot =>
    have hne : i ≠ slot := by simpa [Place.slots] using hi
    exact get_setValue_of_ne hne d word
  | double low high =>
    have hne : i ≠ low ∧ i ≠ high := by simpa [Place.slots] using hi
    have reads : ∀ d : Datapath c δ, d.valueAt (.double low high) =
        d.values.get low + d.values.get high * c.wordSize := fun _ => rfl
    rw [reads, reads, get_setValue_of_ne hne.1, get_setValue_of_ne hne.2]

theorem cell_setValue {i : Fin c.size} {place : Place c.size} (hi : i ∉ place.slots)
    (d : Datapath c δ) (word : Word) : (d.setValue i word).cell place = d.cell place := by
  unfold cell
  simp only [valueAt_setValue hi]

theorem portNumber_setValue {i : Fin c.size} {place : Place c.size} (hi : i ∉ place.slots)
    (d : Datapath c δ) (word : Word) :
    (d.setValue i word).portNumber place = d.portNumber place := by
  unfold portNumber
  rw [valueAt_setValue hi]

theorem put_setValue {i j : Fin c.size} (hij : i ≠ j) (d : Datapath c δ) (x y : Word) :
    (d.setValue i x).put j y = (d.put j y).setValue i x := by
  simp only [setValue_eq, put]
  rw [Vector.set_comm x y (Fin.val_ne_of_ne hij)]

variable [Device δ]

theorem drive_setValue {i j : Fin c.size} (hij : i ≠ j)
    (hreads : i ∉ (c.wiring.slots.get j).kind.reads) (d : Datapath c δ) (word : Word) :
    (d.setValue i word).drive j = (d.drive j).setValue i word := by
  cases hkind : (c.wiring.slots.get j).kind with
  | register =>
    rw [drive_register hkind, drive_register hkind, get_setValue_of_ne hij]
    rfl
  | memory address =>
    rw [hkind] at hreads
    rw [drive_memory hkind, drive_memory hkind, cell_setValue hreads, put_setValue hij]
    rfl
  | port selector =>
    rw [hkind] at hreads
    rw [drive_port hkind, drive_port hkind, portNumber_setValue hreads, ← put_setValue hij]
    rfl
  | adder lhs rhs =>
    have hne : i ≠ lhs ∧ i ≠ rhs := by simpa [hkind, SlotKind.reads] using hreads
    rw [drive_adder hkind, drive_adder hkind, get_setValue_of_ne hne.1, get_setValue_of_ne hne.2]
    unfold putResult
    rw [put_setValue hij]
    rfl
  | subtractor lhs rhs =>
    have hne : i ≠ lhs ∧ i ≠ rhs := by simpa [hkind, SlotKind.reads] using hreads
    rw [drive_subtractor hkind, drive_subtractor hkind, get_setValue_of_ne hne.1,
      get_setValue_of_ne hne.2]
    unfold putResult
    rw [put_setValue hij]
    rfl

theorem driveAccess_setValue {i j : Fin c.size}
    (hreads : i ∉ (c.wiring.slots.get j).kind.reads) (d : Datapath c δ) (word : Word) :
    (d.setValue i word).driveAccess j = d.driveAccess j := by
  unfold driveAccess
  split
  · rename_i selector hkind
    rw [hkind] at hreads
    rw [portNumber_setValue hreads]
    rfl
  · rfl

theorem get_drive_of_ne {i j : Fin c.size} (hij : j ≠ i) (d : Datapath c δ) :
    (d.drive j).values.get i = d.values.get i := by
  cases hkind : (c.wiring.slots.get j).kind with
  | register => rw [drive_register hkind]
  | memory address =>
    rw [drive_memory hkind]
    exact get_setValue_of_ne hij d _
  | port selector =>
    rw [drive_port hkind]
    exact get_setValue_of_ne hij d _
  | adder lhs rhs =>
    rw [drive_adder hkind]
    exact get_setValue_of_ne hij d _
  | subtractor lhs rhs =>
    rw [drive_subtractor hkind]
    exact get_setValue_of_ne hij d _

omit [Device δ] in
theorem active_count (d : Datapath c δ) (i : Fin c.size) : (d.count i).active = d.active := by
  unfold count
  split
  · exact congrArg Prod.fst (control_increment d i)
  · rfl

section Counting

variable {d : Datapath c δ} (h : c.wiring.Orderly d.active)
include h

omit [Device δ] in
theorem count_eq (i : Fin c.size) : d.count i =
    if (d.active.get i).incr then d.setValue i ((d.values.get i + 1) % c.wordSize) else d := by
  unfold count
  split
  · rename_i hincr
    exact increment_eq (h.counts i hincr) d
  · rfl

omit [Device δ] in
theorem count_comm {i j : Fin c.size} (hij : i ≠ j) :
    (d.count i).count j = (d.count j).count i := by
  have orderly : ∀ i, c.wiring.Orderly (d.count i).active := by
    intro i
    rw [active_count]
    exact h
  rw [count_eq (orderly i), count_eq (orderly j), active_count, active_count, count_eq h,
    count_eq h]
  split <;> split
  · rw [get_setValue_of_ne hij, get_setValue_of_ne hij.symm, setValue_comm hij]
  all_goals rfl

theorem count_drive {i j : Fin c.size} (hij : i ≠ j) (hj : (d.active.get j).drive = true) :
    (d.drive j).count i = (d.count i).drive j := by
  have active : (d.drive j).active = d.active := congrArg Prod.fst (control_drive d j)
  have orderly : c.wiring.Orderly (d.drive j).active := active ▸ h
  rw [count_eq orderly, count_eq h, active]
  split
  · rename_i hi
    rw [get_drive_of_ne hij.symm, drive_setValue hij (h.apart i j hi hj)]
  · rfl

theorem driveAccess_count {i j : Fin c.size} (hj : (d.active.get j).drive = true) :
    (d.count i).driveAccess j = d.driveAccess j := by
  rw [count_eq h]
  split
  · rename_i hi
    exact driveAccess_setValue (h.apart i j hi hj) d _
  · rfl

end Counting

section Commuting

variable {s : Datapath c δ × List PortAccess} {i j : Fin c.size}

theorem driveNoting_of_off (hi : (s.1.active.get i).drive = false) :
    driveNoting s i = (s.1.count i, s.2) := by
  unfold driveNoting
  rw [drivePhase_eq, hi, if_neg Bool.false_ne_true, if_neg Bool.false_ne_true, List.append_nil]
  rfl

theorem driveNoting_of_drive (hi : (s.1.active.get i).drive = true) :
    driveNoting s i = ((s.1.count i).drive i, s.2 ++ (s.1.count i).driveAccess i) := by
  unfold driveNoting
  rw [drivePhase_eq, hi, if_pos rfl, if_pos rfl]
  rfl

theorem active_driveNoting (s : Datapath c δ × List PortAccess) (i : Fin c.size) :
    (driveNoting s i).1.active = s.1.active :=
  active_drivePhase s.1 i

theorem driveNoting_comm_of_off (h : c.wiring.Orderly s.1.active) (hij : i ≠ j)
    (hj : (s.1.active.get j).drive = false) :
    driveNoting (driveNoting s i) j = driveNoting (driveNoting s j) i := by
  have hj' : ((driveNoting s i).1.active.get j).drive = false := by
    rw [active_driveNoting]
    exact hj
  have active : (s.1.count j).active = s.1.active := active_count s.1 j
  rw [driveNoting_of_off hj', driveNoting_of_off hj]
  cases hi : (s.1.active.get i).drive with
  | false =>
    rw [driveNoting_of_off hi, driveNoting_of_off (active ▸ hi), count_comm h hij]
  | true =>
    -- `j` may count before `i` drives or after it, for `i` does not read `j`
    have counted : c.wiring.Orderly (s.1.count i).active := (active_count s.1 i).symm ▸ h
    have hdrive : ((s.1.count i).active.get i).drive = true := (active_count s.1 i).symm ▸ hi
    rw [driveNoting_of_drive hi, driveNoting_of_drive (active ▸ hi)]
    dsimp only
    rw [count_drive counted hij.symm hdrive, count_comm h hij.symm,
      ← driveAccess_count counted hdrive]

theorem driveNoting_comm (h : c.wiring.Orderly s.1.active) (i j : Fin c.size) :
    driveNoting (driveNoting s i) j = driveNoting (driveNoting s j) i := by
  by_cases hij : i = j
  · rw [hij]
  · cases hj : (s.1.active.get j).drive with
    | false => exact driveNoting_comm_of_off h hij hj
    | true =>
      have hi : (s.1.active.get i).drive = false :=
        Bool.eq_false_iff.mpr fun hi => hij (h.drives i j hi hj)
      exact (driveNoting_comm_of_off h (Ne.symm hij) hi).symm

theorem latchNoting_of_off (hi : (s.1.active.get i).latch = false) (word : Word) :
    latchNoting word s i = s := by
  unfold latchNoting
  rw [latchPhase_skip word s.1 i hi, hi, if_neg Bool.false_ne_true, List.append_nil]

theorem latchNoting_of_latch (hi : (s.1.active.get i).latch = true) (word : Word) :
    latchNoting word s i = (s.1.latch word i, s.2 ++ s.1.latchAccess word i) := by
  unfold latchNoting
  rw [latchPhase_of_latch hi, if_pos hi]

theorem active_latchNoting (word : Word) (s : Datapath c δ × List PortAccess) (i : Fin c.size) :
    (latchNoting word s i).1.active = s.1.active :=
  active_latchPhase s.1 word i

theorem latchNoting_comm (h : c.wiring.Orderly s.1.active) (word : Word) (i j : Fin c.size) :
    latchNoting word (latchNoting word s i) j = latchNoting word (latchNoting word s j) i := by
  by_cases hij : i = j
  · rw [hij]
  · cases hj : (s.1.active.get j).latch with
    | false =>
      have hj' : ((latchNoting word s i).1.active.get j).latch = false := by
        rw [active_latchNoting]
        exact hj
      rw [latchNoting_of_off hj', latchNoting_of_off hj]
    | true =>
      have hi : (s.1.active.get i).latch = false :=
        Bool.eq_false_iff.mpr fun hi => hij (h.latches i j hi hj)
      have hi' : ((latchNoting word s j).1.active.get i).latch = false := by
        rw [active_latchNoting]
        exact hi
      rw [latchNoting_of_off hi', latchNoting_of_off hi]

omit [Device δ] in
theorem resetPhase_comm (d : Datapath c δ) (i j : Fin c.size) :
    (d.resetPhase i).resetPhase j = (d.resetPhase j).resetPhase i := by
  by_cases hij : i = j
  · rw [hij]
  · have visit : ∀ (d : Datapath c δ) (i : Fin c.size),
        d.resetPhase i = if (d.active.get i).reset then d.setValue i 0 else d := resetPhase_eq
    rw [visit (d.resetPhase i), visit (d.resetPhase j), active_resetPhase, active_resetPhase,
      visit d i, visit d j]
    split <;> split
    · exact setValue_comm hij d 0 0
    all_goals rfl

end Commuting

omit [Device δ] in
theorem foldl_eq_of_perm
    {visit : Datapath c δ × List PortAccess → Fin c.size → Datapath c δ × List PortAccess}
    (keep : ∀ s i, (visit s i).1.active = s.1.active)
    (comm : ∀ s, c.wiring.Orderly s.1.active → ∀ i j, visit (visit s i) j = visit (visit s j) i)
    {order order' : List (Fin c.size)} (hperm : order.Perm order')
    {s : Datapath c δ × List PortAccess} (h : c.wiring.Orderly s.1.active) :
    order.foldl visit s = order'.foldl visit s := by
  induction hperm generalizing s with
  | nil => rfl
  | cons i _ ih => exact ih (s := visit s i) ((keep s i).symm ▸ h)
  | swap i j rest =>
    rw [List.foldl_cons, List.foldl_cons, List.foldl_cons, List.foldl_cons, comm s h]
  | trans _ _ ih ih' => exact (ih h).trans (ih' h)

/-- Where the asserted lines are orderly, every order of the slots has the same outcome. -/
theorem endCycleBy_perm {d : Datapath c δ} (h : c.wiring.Orderly d.active)
    {order order' : List (Fin c.size)} (hperm : order.Perm order') :
    d.endCycleBy order = d.endCycleBy order' := by
  have driven : order.foldl driveNoting (d, []) = order'.foldl driveNoting (d, []) :=
    foldl_eq_of_perm (fun s i => active_driveNoting s i) (fun s hs => driveNoting_comm hs) hperm h
  have active : (order'.foldl driveNoting (d, [])).1.active = d.active := by
    rw [foldl_driveNoting]
    exact foldl_keep active_drivePhase order' d
  have latched : ∀ word, order.foldl (latchNoting word) (order'.foldl driveNoting (d, [])) =
      order'.foldl (latchNoting word) (order'.foldl driveNoting (d, [])) := fun word =>
    foldl_eq_of_perm (active_latchNoting word) (fun s hs => latchNoting_comm hs word) hperm
      (active ▸ h)
  unfold endCycleBy
  dsimp only
  rw [driven, latched]
  exact congrArg (·, _) (hperm.foldl_eq' (fun i _ j _ d => resetPhase_comm d i j) _)

end Datapath

end BusMachine
