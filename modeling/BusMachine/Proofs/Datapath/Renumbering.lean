import BusMachine.Proofs.Datapath.Order
import BusMachine.Proofs.Sequencer.Cycles
import BusMachine.Proofs.Sequencer.Order

/-!
Datapaths over two wirings that differ in the order of their slots. Every visit of a slot mirrors
the visit of the slot that corresponds to it, and where the asserted lines are orderly the ends of
cycles mirror each other as well, although each of the two visits its slots in its own order.
-/

namespace BusMachine

section Devices

variable {δ δ' : Type} [Device δ] [Device δ']

def Device.answers : δ → List (Option Word) → List Word
  | _, [] => []
  | a, none :: rest => (Device.read a).1 :: answers (Device.read a).2 rest
  | a, some word :: rest => answers (Device.write a word) rest

/-- Two devices that cannot be told apart by using them. -/
def Device.Alike (a : δ) (b : δ') : Prop :=
  ∀ script, Device.answers a script = Device.answers b script

namespace Device.Alike

variable {a : δ} {b : δ'} (h : Device.Alike a b)
include h

theorem word_eq : (Device.read a).1 = (Device.read b).1 :=
  List.head_eq_of_cons_eq (h [none])

theorem read : Device.Alike (Device.read a).2 (Device.read b).2 := fun script =>
  List.tail_eq_of_cons_eq (h (none :: script))

theorem write (word : Word) : Device.Alike (Device.write a word) (Device.write b word) :=
  fun script => h (some word :: script)

end Device.Alike

def Ports.Alike (ports : Ports δ) (ports' : Ports δ') : Prop :=
  ∀ port, Option.Rel Device.Alike (ports.get? port) (ports'.get? port)

namespace Ports.Alike

theorem refl (ports : Ports δ) : ports.Alike ports := fun port => by
  cases ports.get? port with
  | none => exact .none
  | some device => exact .some fun _ => rfl

variable {ports : Ports δ} {ports' : Ports δ'}

theorem insert (h : ports.Alike ports') {a : δ} {b : δ'} (hab : Device.Alike a b) (port : Word) :
    Ports.Alike (SparseTable.insert ports port a) (SparseTable.insert ports' port b) := by
  intro other
  rw [SparseTable.get?_insert, SparseTable.get?_insert]
  split
  · exact .some hab
  · exact h other

theorem read (h : ports.Alike ports') (port : Word) :
    (ports.read port).1 = (ports'.read port).1 ∧
      (ports.read port).2.Alike (ports'.read port).2 := by
  unfold Ports.read
  have here := h port
  generalize ports.get? port = bound, ports'.get? port = bound' at here ⊢
  cases here with
  | none => exact ⟨rfl, h⟩
  | some hab => exact ⟨hab.word_eq, h.insert hab.read port⟩

theorem write (h : ports.Alike ports') (port word : Word) :
    (ports.write port word).Alike (ports'.write port word) := by
  unfold Ports.write SparseTable.modify
  have here := h port
  generalize ports.get? port = bound, ports'.get? port = bound' at here ⊢
  cases here with
  | none => exact h
  | some hab => exact h.insert (hab.write word) port

end Ports.Alike

end Devices

section Slots

variable {w w' : Wiring} {e : Fin w.size ≃ Fin w'.size} (h : w.Reorders w' e) (i : Fin w.size)
include h

theorem Wiring.Reorders.kind : (w'.slots.get (e i)).kind = (w.slots.get i).kind.map e :=
  congrArg Slot.kind (h.slots i)

theorem Wiring.Reorders.carryInto :
    (w'.slots.get (e i)).carryInto = (w.slots.get i).carryInto.map e :=
  congrArg Slot.carryInto (h.slots i)

end Slots

namespace Datapath

variable {params : Parameters} {valid : params.Valid} {w w' : Wiring}
  {e : Fin w.size ≃ Fin w'.size} {δ δ' : Type} [Device δ] [Device δ']

/-- Two datapaths with the same contents in two orders of the slots. -/
structure Resembles (e : Fin w.size ≃ Fin w'.size) (d : Datapath ⟨params, valid, w⟩ δ)
    (d' : Datapath ⟨params, valid, w'⟩ δ') : Prop where
  values : ∀ i, d'.values.get (e i) = d.values.get i
  flags : d'.flags = d.flags
  memory : d'.memory = d.memory
  ports : d.ports.Alike d'.ports

/-- Two datapaths in the middle of the same cycle. -/
structure Mirrors (e : Fin w.size ≃ Fin w'.size) (d : Datapath ⟨params, valid, w⟩ δ)
    (d' : Datapath ⟨params, valid, w'⟩ δ') : Prop extends Resembles e d d' where
  active : ∀ i, d'.active.get (e i) = d.active.get i
  bus : d'.bus = d.bus
  halting : d'.halting = d.halting

theorem get_set_map {α : Type} {m n : Nat} {e : Fin m ≃ Fin n} {xs : Vector α m} {ys : Vector α n}
    (h : ∀ i, ys.get (e i) = xs.get i) (slot i : Fin m) (x : α) :
    (ys.set (e slot) x (e slot).isLt).get (e i) = (xs.set slot x slot.isLt).get i := by
  rw [get_set, get_set, h]
  simp only [e.apply_eq_iff_eq]

variable {d : Datapath ⟨params, valid, w⟩ δ} {d' : Datapath ⟨params, valid, w'⟩ δ'}

theorem resembles_initial : Resembles e (.initial : Datapath ⟨params, valid, w⟩ δ)
    (.initial : Datapath ⟨params, valid, w'⟩ δ') where
  values i := by simp [initial, Vector.get]
  flags := rfl
  memory := rfl
  ports _ := .none

theorem Resembles.beginCycle (hd : Resembles e d d') : Mirrors e d.beginCycle d'.beginCycle where
  toResembles := ⟨hd.values, hd.flags, hd.memory, hd.ports⟩
  active i := by simp [Datapath.beginCycle, Vector.get]
  bus := rfl
  halting := rfl

theorem Resembles.valueAt (hd : Resembles e d d') (place : Place w.size) :
    d'.valueAt (place.map e) = d.valueAt place := by
  cases place with
  | single slot => exact hd.values slot
  | double low high =>
    show d'.values.get (e low) + d'.values.get (e high) * params.wordSize =
      d.values.get low + d.values.get high * params.wordSize
    rw [hd.values, hd.values]

theorem Resembles.cell (hd : Resembles e d d') (place : Place w.size) :
    d'.cell (place.map e) = d.cell place :=
  Fin.ext (congrArg (· % params.memorySize) (hd.valueAt place))

theorem Resembles.portNumber (hd : Resembles e d d') (place : Place w.size) :
    d'.portNumber (place.map e) = d.portNumber place :=
  congrArg (· % params.wordSize) (hd.valueAt place)

namespace Mirrors

variable (hd : Mirrors e d d')
include hd

theorem assert (a : Action w.size) : Mirrors e (d.assert a) (d'.assert (a.map e)) := by
  cases a with
  | line slot signal =>
    refine ⟨⟨hd.values, hd.flags, hd.memory, hd.ports⟩, fun i => ?_, hd.bus, hd.halting⟩
    show (d'.active.set (e slot) ((d'.active.get (e slot)).insert signal) (e slot).isLt).get (e i) =
      (d.active.set slot ((d.active.get slot).insert signal) slot.isLt).get i
    rw [hd.active slot]
    exact get_set_map hd.active slot i _
  | halt => exact ⟨⟨hd.values, hd.flags, hd.memory, hd.ports⟩, hd.active, hd.bus, rfl⟩
  | literal value =>
    exact ⟨⟨hd.values, hd.flags, hd.memory, hd.ports⟩, hd.active,
      congrArg (· ||| value) hd.bus, hd.halting⟩

theorem setValue (i : Fin w.size) (word : Word) :
    Mirrors e (d.setValue i word) (d'.setValue (e i) word) :=
  ⟨⟨fun j => get_set_map hd.values i j word, hd.flags, hd.memory, hd.ports⟩, hd.active, hd.bus,
    hd.halting⟩

theorem drivingBus (word : Word) :
    Mirrors e { d with bus := d.bus ||| word } { d' with bus := d'.bus ||| word } :=
  ⟨⟨hd.values, hd.flags, hd.memory, hd.ports⟩, hd.active, congrArg (· ||| word) hd.bus,
    hd.halting⟩

theorem put (i : Fin w.size) (word : Word) : Mirrors e (d.put i word) (d'.put (e i) word) :=
  (hd.setValue i word).drivingBus word

theorem putResult (i : Fin w.size) (result : Arithmetic) :
    Mirrors e (d.putResult i result) (d'.putResult (e i) result) :=
  have kept := hd.put i result.value
  ⟨⟨kept.values, rfl, kept.memory, kept.ports⟩, kept.active, kept.bus, kept.halting⟩

theorem withPorts {ports : Ports δ} {ports' : Ports δ'} (hports : ports.Alike ports') :
    Mirrors e { d with ports } { d' with ports := ports' } :=
  ⟨⟨hd.values, hd.flags, hd.memory, hports⟩, hd.active, hd.bus, hd.halting⟩

end Mirrors

omit [Device δ] in
theorem increment_carry {c : Circuit} {i high : Fin c.size}
    (h : (c.wiring.slots.get i).carryInto = some high) (d : Datapath c δ) :
    d.increment i =
      if (d.values.get i + 1) % c.wordSize = 0 then
        (d.setValue i ((d.values.get i + 1) % c.wordSize)).setValue high
          (((d.setValue i ((d.values.get i + 1) % c.wordSize)).values.get high + 1) % c.wordSize)
      else d.setValue i ((d.values.get i + 1) % c.wordSize) := by
  change c.wiring.slots[i].carryInto = _ at h
  unfold Datapath.increment
  dsimp only
  rw [h]
  rfl

section Visits

variable (h : w.Reorders w' e) (hd : Mirrors e d d')
include h hd

theorem Mirrors.increment (i : Fin w.size) : Mirrors e (d.increment i) (d'.increment (e i)) := by
  have carry := h.carryInto i
  have counted := hd.setValue i ((d.values.get i + 1) % params.wordSize)
  cases hcarry : (w.slots.get i).carryInto with
  | none =>
    rw [hcarry] at carry
    rw [increment_eq hcarry, increment_eq carry, hd.values]
    exact counted
  | some high =>
    rw [hcarry] at carry
    rw [increment_carry hcarry, increment_carry carry, hd.values, counted.values]
    split
    · exact counted.setValue high _
    · exact counted

theorem Mirrors.drive (i : Fin w.size) : Mirrors e (d.drive i) (d'.drive (e i)) := by
  have kind := h.kind i
  cases hkind : (w.slots.get i).kind with
  | register =>
    have driven := hd.drivingBus (d.values.get i)
    rw [hkind] at kind
    rw [drive_register hkind, drive_register kind, hd.values]
    exact driven
  | memory address =>
    rw [hkind] at kind
    rw [drive_memory hkind, drive_memory kind, hd.cell, hd.memory]
    exact hd.put i _
  | port selector =>
    have ⟨word, ports⟩ := hd.ports.read (d.portNumber selector)
    rw [hkind] at kind
    rw [drive_port hkind, drive_port kind, hd.portNumber, ← word]
    exact (hd.withPorts ports).put i _
  | adder lhs rhs =>
    rw [hkind] at kind
    rw [drive_adder hkind, drive_adder kind, hd.values, hd.values]
    exact hd.putResult i _
  | subtractor lhs rhs =>
    rw [hkind] at kind
    rw [drive_subtractor hkind, drive_subtractor kind, hd.values, hd.values]
    exact hd.putResult i _

theorem Mirrors.driveAccess (i : Fin w.size) : d'.driveAccess (e i) = d.driveAccess i := by
  have kind := h.kind i
  unfold Datapath.driveAccess
  dsimp only
  rw [kind]
  cases (w.slots.get i).kind with
  | port selector =>
    dsimp only [SlotKind.map]
    rw [hd.portNumber, (hd.ports.read _).1]
  | _ => rfl

theorem Mirrors.latch (word : Word) (i : Fin w.size) :
    Mirrors e (d.latch word i) (d'.latch word (e i)) := by
  have kind := h.kind i
  have stored := hd.setValue i word
  cases hkind : (w.slots.get i).kind with
  | register =>
    rw [hkind] at kind
    rw [latch_register hkind, latch_register kind]
    exact stored
  | memory address =>
    rw [hkind] at kind
    rw [latch_memory hkind, latch_memory kind, hd.cell, hd.memory]
    exact ⟨⟨stored.values, stored.flags, rfl, stored.ports⟩, stored.active, stored.bus,
      stored.halting⟩
  | port selector =>
    rw [hkind] at kind
    rw [latch_port hkind, latch_port kind, hd.portNumber]
    exact stored.withPorts (hd.ports.write _ word)
  | adder lhs rhs =>
    rw [hkind] at kind
    rw [latch_adder hkind, latch_adder kind]
    exact hd
  | subtractor lhs rhs =>
    rw [hkind] at kind
    rw [latch_subtractor hkind, latch_subtractor kind]
    exact hd

theorem Mirrors.latchAccess (word : Word) (i : Fin w.size) :
    d'.latchAccess word (e i) = d.latchAccess word i := by
  have kind := h.kind i
  unfold Datapath.latchAccess
  dsimp only
  rw [kind]
  cases (w.slots.get i).kind with
  | port selector =>
    dsimp only [SlotKind.map]
    rw [hd.portNumber]
  | _ => rfl

theorem Mirrors.count (i : Fin w.size) : Mirrors e (d.count i) (d'.count (e i)) := by
  unfold Datapath.count
  rw [hd.active]
  split
  · exact hd.increment h i
  · exact hd

omit h in
theorem Mirrors.resetPhase (i : Fin w.size) :
    Mirrors e (d.resetPhase i) (d'.resetPhase (e i)) := by
  rw [resetPhase_eq, resetPhase_eq, hd.active]
  split
  · exact hd.setValue i 0
  · exact hd

end Visits

def MirrorsNoting (e : Fin w.size ≃ Fin w'.size)
    (s : Datapath ⟨params, valid, w⟩ δ × List PortAccess)
    (s' : Datapath ⟨params, valid, w'⟩ δ' × List PortAccess) : Prop :=
  Mirrors e s.1 s'.1 ∧ s'.2 = s.2

section Ending

variable (h : w.Reorders w' e)
include h

theorem MirrorsNoting.driveNoting {s : Datapath ⟨params, valid, w⟩ δ × List PortAccess}
    {s' : Datapath ⟨params, valid, w'⟩ δ' × List PortAccess} (hs : MirrorsNoting e s s')
    (i : Fin w.size) : MirrorsNoting e (driveNoting s i) (driveNoting s' (e i)) := by
  obtain ⟨hd, hlog⟩ := hs
  have counted := hd.count h i
  have drives := congrArg Lines.drive (hd.active i)
  cases hi : (s.1.active.get i).drive with
  | false =>
    rw [driveNoting_of_off hi, driveNoting_of_off (drives.trans hi)]
    exact ⟨counted, hlog⟩
  | true =>
    rw [driveNoting_of_drive hi, driveNoting_of_drive (drives.trans hi)]
    exact ⟨counted.drive h i, congrArg₂ (· ++ ·) hlog (counted.driveAccess h i)⟩

theorem MirrorsNoting.latchNoting {s : Datapath ⟨params, valid, w⟩ δ × List PortAccess}
    {s' : Datapath ⟨params, valid, w'⟩ δ' × List PortAccess} (hs : MirrorsNoting e s s')
    (word : Word) (i : Fin w.size) :
    MirrorsNoting e (latchNoting word s i) (latchNoting word s' (e i)) := by
  obtain ⟨hd, hlog⟩ := hs
  have latches := congrArg Lines.latch (hd.active i)
  cases hi : (s.1.active.get i).latch with
  | false =>
    rw [latchNoting_of_off hi, latchNoting_of_off (latches.trans hi)]
    exact ⟨hd, hlog⟩
  | true =>
    rw [latchNoting_of_latch hi, latchNoting_of_latch (latches.trans hi)]
    exact ⟨hd.latch h word i, congrArg₂ (· ++ ·) hlog (hd.latchAccess h word i)⟩

theorem Mirrors.endCycleBy {d : Datapath ⟨params, valid, w⟩ δ}
    {d' : Datapath ⟨params, valid, w'⟩ δ'} (hd : Mirrors e d d') (order : List (Fin w.size)) :
    MirrorsNoting e (d.endCycleBy order) (d'.endCycleBy (order.map e)) := by
  have start : MirrorsNoting e (d, []) (d', []) := ⟨hd, rfl⟩
  have driven := List.foldl_rel (l := order) start fun i _ _ _ hs => hs.driveNoting h i
  have latched := List.foldl_rel (l := order) driven fun i _ _ _ hs =>
    hs.latchNoting h ((order.foldl Datapath.driveNoting (d, [])).1.bus % params.wordSize) i
  have cleared := List.foldl_rel (l := order) latched.1 fun i _ _ _ hd => hd.resetPhase i
  have bus := driven.1.bus
  unfold Datapath.endCycleBy
  dsimp only
  rw [List.foldl_map, List.foldl_map, List.foldl_map, bus]
  exact ⟨cleared, latched.2⟩

theorem Mirrors.endCycle {d : Datapath ⟨params, valid, w⟩ δ}
    {d' : Datapath ⟨params, valid, w'⟩ δ'} (hd : Mirrors e d d') (horderly : w.Orderly d.active) :
    Mirrors e d.endCycle d'.endCycle ∧ d'.traffic = d.traffic := by
  -- the slots of `w` in the order in which a cycle over `w'` visits them
  let order := (List.finRange w'.size).map e.symm
  have image : order.map e = List.finRange w'.size := by
    rw [List.map_map, e.self_comp_symm, List.map_id]
  have hperm : order.Perm (List.finRange w.size) := by
    refine (List.perm_ext_iff_of_nodup ?_ (List.nodup_finRange _)).mpr fun i => ?_
    · exact (List.nodup_finRange _).map e.symm.injective
    · refine ⟨fun _ => List.mem_finRange i, fun _ => ?_⟩
      exact List.mem_map.mpr ⟨e i, List.mem_finRange _, e.symm_apply_apply i⟩
  have same := endCycleBy_perm (d := d) horderly hperm
  have mirrored := hd.endCycleBy h order
  rw [image, same] at mirrored
  rw [endCycle_eq_endCycleBy, endCycle_eq_endCycleBy]
  exact mirrored

end Ending

/-- Two datapaths with the same number under every name, the same flags and memory, and ports of
equal behaviour. -/
structure SameByName {c c' : Circuit} (d : Datapath c δ) (d' : Datapath c' δ') : Prop where
  values : ∀ name, d.valueOf name = d'.valueOf name
  flags : d.flags = d'.flags
  memory : d.memory.toList = d'.memory.toList
  ports : d.ports.Alike d'.ports

variable {d : Datapath ⟨params, valid, w⟩ δ} {d' : Datapath ⟨params, valid, w'⟩ δ'}

theorem Resembles.sameByName (h : w.Reorders w' e) (hd : Resembles e d d') : d.SameByName d' where
  values name := by
    unfold valueOf
    dsimp only
    rw [h.places]
    cases w.place? name with
    | none => rfl
    | some place => exact congrArg Except.ok (hd.valueAt place).symm
  flags := hd.flags.symm
  memory := congrArg Vector.toList hd.memory.symm
  ports := hd.ports

theorem SameByName.resembles (h : w.Reorders w' e)
    (hnamed : ∀ i, ∃ name, w.place? name = some (.single i)) (hd : d.SameByName d') :
    Resembles e d d' where
  values i := by
    obtain ⟨name, hname⟩ := hnamed i
    have hname' : w'.place? name = some (.single (e i)) := by
      rw [h.places, hname]
      rfl
    have same := hd.values name
    unfold valueOf at same
    dsimp only at same
    rw [hname, hname'] at same
    exact (Except.ok.inj same).symm
  flags := hd.flags.symm
  memory := (Vector.toList_inj.mp hd.memory).symm
  ports := hd.ports

end Datapath

namespace Sequencer

def asserted {c : Circuit} {δ : Type} (q : Sequencer c.wiring) (d : Datapath c δ) : Datapath c δ :=
  (d.beginCycle.assertAll
    (q.actions (d.values.get q.instruction) (d.values.get q.tick) d.flags)).assert
      (.line q.tick .incr)

/-- What can be seen of a cycle from outside. -/
structure Observation where
  report : CycleReport
  bus : Word
  accesses : List PortAccess
deriving DecidableEq, Repr

def observe {c : Circuit} {δ : Type} [Device δ] (q : Sequencer c.wiring) (d : Datapath c δ) :
    Observation where
  report := (q.cycle d).1
  bus := (q.cycle d).2.bus
  accesses := (q.asserted d).traffic

theorem ports_cycle {c : Circuit} {δ : Type} [Device δ] (q : Sequencer c.wiring)
    (d : Datapath c δ) :
    (q.observe d).accesses.foldlM Ports.perform? d.ports = some (q.cycle d).2.ports := by
  have kept : ∀ actions, (d.beginCycle.assertAll actions).ports = d.ports := by
    intro actions
    have all : d.beginCycle.assertAll actions = _ := Datapath.withAsserted_assertAll d actions {}
    rw [all]
    rfl
  have ports : (q.asserted d).ports = d.ports := kept _
  rw [← ports]
  exact (q.asserted d).ports_endCycle

variable {params : Parameters} {valid : params.Valid} {w w' : Wiring}
  {e : Fin w.size ≃ Fin w'.size} {δ δ' : Type} [Device δ] [Device δ']
  {q : Sequencer w} {q' : Sequencer w'}

section Cycle

variable (h : w.Reorders w' e) (hq : Reorders e q q')
  {d : Datapath ⟨params, valid, w⟩ δ} {d' : Datapath ⟨params, valid, w'⟩ δ'}

include hq in
theorem Reorders.asserted (hd : Datapath.Resembles e d d') :
    Datapath.Mirrors e (q.asserted d)
      (q'.asserted d') := by
  have begun := hd.beginCycle
  have all := List.foldl_rel begun fun (a : Action w.size) (_ : a ∈ q.actions
    (d.values.get q.instruction) (d.values.get q.tick) d.flags) _ _ hd => hd.assert a
  unfold Sequencer.asserted Datapath.assertAll
  dsimp only
  rw [hq.tick, hq.instruction, hd.values, hd.values, hd.flags, hq.actions, List.foldl_map]
  exact all.assert (.line q.tick .incr)

include h hq in
theorem Reorders.cycle (hd : Datapath.Resembles e d d')
    (horderly : w.Orderly (q.asserted d).active) :
    Datapath.Resembles e (q.cycle d).2
        (q'.cycle d').2 ∧
      q.observe d = q'.observe d' := by
  have ⟨ended, traffic⟩ := (hq.asserted hd).endCycle h horderly
  have step : d'.values.get q'.tick = d.values.get q.tick := by
    rw [hq.tick, hd.values]
  have opcode : d'.values.get q'.instruction = d.values.get q.instruction := by
    rw [hq.instruction, hd.values]
  have report : (q.cycle d).1 = (q'.cycle d').1 := by
    show CycleReport.mk (d.values.get q.instruction) (d.values.get q.tick)
      (q.asserted d).endCycle.halting = CycleReport.mk (d'.values.get q'.instruction)
        (d'.values.get q'.tick) (q'.asserted d').endCycle.halting
    rw [step, opcode, ended.halting]
  refine ⟨ended.toResembles, ?_⟩
  unfold observe
  rw [report, traffic]
  exact congrArg (Observation.mk _ · _) ended.bus.symm

end Cycle

theorem Reorders.cycles (h : w.Reorders w' e) (hq : Reorders e q q')
    (horderly : ∀ d : Datapath ⟨params, valid, w⟩ δ, w.Orderly (q.asserted d).active)
    {d : Datapath ⟨params, valid, w⟩ δ} {d' : Datapath ⟨params, valid, w'⟩ δ'}
    (hd : Datapath.Resembles e d d') (count : Nat) :
    Datapath.Resembles e (q.cycles count d) (q'.cycles count d') := by
  induction count with
  | zero => exact hd
  | succ count ih =>
    rw [cycles_succ, cycles_succ]
    exact (hq.cycle h ih (horderly _)).1

end Sequencer

end BusMachine
