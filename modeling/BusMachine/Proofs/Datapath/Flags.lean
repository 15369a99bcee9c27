import BusMachine.Proofs.Datapath.Assertion
import BusMachine.Proofs.Datapath.Bus
import BusMachine.Proofs.Datapath.Order

/-!
Sums, differences and the flags. The exact results are told in numbers; a cycle visits the slots in
order, so that the flags are those of the last slot that computed, whose operands are what the slots
in front of it left behind.
-/

namespace BusMachine

namespace Arithmetic

variable {wordSize a b : Nat}

theorem sub_value_eq (hle : wordSize ≤ addressSpace) (hb : b < wordSize) :
    ((sub wordSize a b).value : Int) = ((a : Int) - b) % wordSize := by
  have borrowed : ((a + wordSize - b : Nat) : Int) = (a : Int) - b + wordSize := by omega
  rw [sub_eq (Nat.zero_lt_of_lt hb) hle, Int.natCast_mod, borrowed, Int.add_emod_right]

theorem sub_add (hle : wordSize ≤ addressSpace) (ha : a < wordSize) (hb : b < wordSize) :
    sub wordSize (add wordSize a b).value b = ⟨a, (add wordSize a b).carry⟩ := by
  have hpos : 0 < wordSize := Nat.zero_lt_of_lt ha
  rw [add_eq hpos hle, sub_eq hpos hle, Arithmetic.mk.injEq, decide_eq_decide]
  by_cases carried : wordSize ≤ a + b
  · have value : (a + b) % wordSize = a + b - wordSize := by
      rw [Nat.mod_eq_sub_mod carried, Nat.mod_eq_of_lt (by omega)]
    have borrows : a + b - wordSize < b ↔ wordSize ≤ a + b := by omega
    rw [value, Nat.sub_add_cancel carried, Nat.add_sub_cancel, Nat.mod_eq_of_lt ha]
    exact ⟨rfl, borrows⟩
  · have value : (a + b) % wordSize = a + b := Nat.mod_eq_of_lt (Nat.lt_of_not_le carried)
    have enough : a + b < b ↔ wordSize ≤ a + b := by omega
    rw [value, Nat.add_right_comm, Nat.add_sub_cancel, Nat.add_mod_right, Nat.mod_eq_of_lt ha]
    exact ⟨rfl, enough⟩

theorem add_sub (hle : wordSize ≤ addressSpace) (ha : a < wordSize) (hb : b < wordSize) :
    add wordSize (sub wordSize a b).value b = ⟨a, (sub wordSize a b).carry⟩ := by
  have hpos : 0 < wordSize := Nat.zero_lt_of_lt ha
  have restored : a + wordSize - b + b = a + wordSize := by omega
  have carries : wordSize ≤ (a + wordSize - b) % wordSize + b ↔ a < b := by
    by_cases borrowed : a < b
    · rw [Nat.mod_eq_of_lt (by omega)]
      omega
    · have value : (a + wordSize - b) % wordSize = a - b := by
        rw [Nat.sub_add_comm (Nat.le_of_not_lt borrowed), Nat.add_mod_right,
          Nat.mod_eq_of_lt (by omega)]
      rw [value]
      omega
  rw [sub_eq hpos hle, add_eq hpos hle, Arithmetic.mk.injEq, decide_eq_decide, Nat.mod_add_mod,
    restored, Nat.add_mod_right, Nat.mod_eq_of_lt ha]
  exact ⟨rfl, carries⟩

end Arithmetic

namespace Datapath

variable {c : Circuit} {δ : Type} [Device δ]

/-- The datapath after the first `n` slots have counted and driven the bus. -/
def drivenTo (d : Datapath c δ) (n : Nat) : Datapath c δ :=
  ((List.finRange c.size).take n).foldl drivePhase d

def beforeDrive (d : Datapath c δ) (i : Fin c.size) : Datapath c δ := (d.drivenTo i).count i

theorem drivePhase_eq_count (d : Datapath c δ) (i : Fin c.size) : d.drivePhase i =
    if (d.active.get i).drive then (d.count i).drive i else d.count i :=
  rfl

theorem drivenTo_succ (d : Datapath c δ) (i : Fin c.size) :
    d.drivenTo (i + 1) = (d.drivenTo i).drivePhase i := by
  unfold drivenTo
  rw [List.take_add_one, List.getElem?_eq_getElem (by simp), List.getElem_finRange,
    List.foldl_append]
  rfl

theorem drivenTo_of_size_le (d : Datapath c δ) {n : Nat} (h : c.size ≤ n) :
    d.drivenTo n = (List.finRange c.size).foldl drivePhase d := by
  unfold drivenTo
  rw [List.take_of_length_le (by simpa using h)]

theorem active_drivenTo (d : Datapath c δ) (n : Nat) : (d.drivenTo n).active = d.active :=
  foldl_keep active_drivePhase _ d

theorem drivenTo_induction {P : Datapath c δ → Prop} {d : Datapath c δ} {m n : Nat} (hmn : m ≤ n)
    (step : ∀ i : Fin c.size, m ≤ i → P (d.drivenTo i) → P ((d.drivenTo i).drivePhase i))
    (start : P (d.drivenTo m)) : P (d.drivenTo n) := by
  induction n, hmn using Nat.le_induction with
  | base => exact start
  | succ n hmn ih =>
    by_cases hn : n < c.size
    · have visited := drivenTo_succ d ⟨n, hn⟩
      rw [visited]
      exact step ⟨n, hn⟩ hmn ih
    · rw [drivenTo_of_size_le d (by omega), ← drivenTo_of_size_le d (Nat.le_of_not_lt hn)]
      exact ih

omit [Device δ] in
theorem beginCycle_increment (d : Datapath c δ) (i : Fin c.size) :
    (d.increment i).beginCycle = d.beginCycle.increment i := by
  unfold increment
  dsimp only
  split
  · split
    · rename_i hwrap
      exact (if_pos hwrap).symm
    · rename_i hwrap
      exact (if_neg hwrap).symm
  · rfl

theorem beginCycle_drive (d : Datapath c δ) (i : Fin c.size) :
    (d.drive i).beginCycle = (d.beginCycle.drive i).beginCycle := by
  unfold drive
  split <;> rfl

section Words

variable {d : Datapath c δ} (h : d.beginCycle.Sound) (i : Fin c.size)
include h

omit [Device δ] in
theorem sound_beginCycle_count : (d.count i).beginCycle.Sound := by
  unfold count
  split
  · rw [beginCycle_increment]
    exact h.increment i
  · exact h

theorem sound_beginCycle_drivePhase : (d.drivePhase i).beginCycle.Sound := by
  have counted := sound_beginCycle_count h i
  rw [drivePhase_eq_count]
  split
  · rw [beginCycle_drive]
    exact (counted.drive i).beginCycle
  · exact counted

theorem sound_beginCycle_beforeDrive : (d.beforeDrive i).beginCycle.Sound := by
  have visited : (d.drivenTo i).beginCycle.Sound :=
    drivenTo_induction (P := fun d' => d'.beginCycle.Sound) (Nat.zero_le _)
      (fun j _ sound => sound_beginCycle_drivePhase sound j) h
  exact sound_beginCycle_count visited i

end Words

/-- A slot is asked for a sum or a difference. -/
def Computes (d : Datapath c δ) (i : Fin c.size) : Prop :=
  (d.active.get i).drive = true ∧ ∃ lhs rhs,
    (c.wiring.slots.get i).kind = .adder lhs rhs ∨ (c.wiring.slots.get i).kind = .subtractor lhs rhs

omit [Device δ] in
theorem flags_increment (d : Datapath c δ) (i : Fin c.size) : (d.increment i).flags = d.flags := by
  obtain ⟨values, h⟩ := d.increment_frame i
  rw [h]

omit [Device δ] in
theorem flags_count (d : Datapath c δ) (i : Fin c.size) : (d.count i).flags = d.flags := by
  unfold count
  split
  · exact flags_increment d i
  · rfl

theorem flags_drivePhase {d : Datapath c δ} {i : Fin c.size} (h : ¬d.Computes i) :
    (d.drivePhase i).flags = d.flags := by
  rw [drivePhase_eq_count]
  split
  · rename_i hdrive
    rw [← flags_count d i]
    cases hkind : (c.wiring.slots.get i).kind with
    | register => rw [drive_register hkind]
    | memory address => rw [drive_memory hkind]; rfl
    | port selector => rw [drive_port hkind]; rfl
    | adder lhs rhs => exact absurd ⟨hdrive, lhs, rhs, .inl hkind⟩ h
    | subtractor lhs rhs => exact absurd ⟨hdrive, lhs, rhs, .inr hkind⟩ h
  · exact flags_count d i

theorem flags_latchPhase (word : Word) (d : Datapath c δ) (i : Fin c.size) :
    (d.latchPhase word i).flags = d.flags := by
  unfold latchPhase latch
  split <;> try split
  all_goals rfl

omit [Device δ] in
theorem flags_resetPhase (d : Datapath c δ) (i : Fin c.size) :
    (d.resetPhase i).flags = d.flags := by
  unfold resetPhase
  split <;> rfl

theorem flags_endCycle (d : Datapath c δ) : d.endCycle.flags = (d.drivenTo c.size).flags := by
  rw [drivenTo_of_size_le d (Nat.le_refl _)]
  unfold endCycle
  simp only [Fin.foldl_eq_finRange_foldl]
  rw [foldl_keep flags_resetPhase, foldl_keep (flags_latchPhase _)]

theorem flags_endCycle_of_last {d : Datapath c δ} {n : Nat} (hn : n ≤ c.size)
    (h : ∀ i : Fin c.size, n ≤ i → ¬d.Computes i) : d.endCycle.flags = (d.drivenTo n).flags := by
  rw [flags_endCycle]
  refine drivenTo_induction (P := fun d' => d'.flags = (d.drivenTo n).flags) hn
    (fun i hi same => ?_) rfl
  have idle : ¬(d.drivenTo i).Computes i := by
    unfold Computes
    rw [active_drivenTo]
    exact h i hi
  rw [flags_drivePhase idle, same]

omit [Device δ] in
theorem bus_count (d : Datapath c δ) (i : Fin c.size) : (d.count i).bus = d.bus := by
  unfold count
  split
  · exact bus_increment d i
  · rfl

theorem exists_bus_drivePhase (d : Datapath c δ) (i : Fin c.size) :
    ∃ word, (d.drivePhase i).bus = d.bus ||| word := by
  rw [drivePhase_eq_count]
  split
  · rw [← bus_count d i]
    cases hkind : (c.wiring.slots.get i).kind with
    | register => rw [drive_register hkind]; exact ⟨_, rfl⟩
    | memory address => rw [drive_memory hkind]; exact ⟨_, rfl⟩
    | port selector => rw [drive_port hkind]; exact ⟨_, rfl⟩
    | adder lhs rhs => rw [drive_adder hkind]; exact ⟨_, rfl⟩
    | subtractor lhs rhs => rw [drive_subtractor hkind]; exact ⟨_, rfl⟩
  · exact ⟨0, by rw [bus_count, Nat.or_zero]⟩

theorem bus_endCycle_of_driven {d : Datapath c δ} {n : Nat} (hn : n ≤ c.size) {word : Word}
    (h : (d.drivenTo n).bus ||| word = (d.drivenTo n).bus) :
    d.endCycle.bus ||| word = d.endCycle.bus := by
  rw [bus_endCycle, ← drivenTo_of_size_le d (Nat.le_refl _)]
  refine drivenTo_induction (P := fun d' => d'.bus ||| word = d'.bus) hn (fun i _ same => ?_) h
  obtain ⟨more, hmore⟩ := exists_bus_drivePhase (d.drivenTo i) i
  rw [hmore, Nat.or_assoc, Nat.or_comm more, ← Nat.or_assoc, same]

/-- Slot `i` comes to a result: it keeps the value and drives it onto the bus, where it stays, and
the flags tell about it until another slot computes. -/
structure Results (d : Datapath c δ) (i : Fin c.size) (r : Arithmetic) : Prop where
  kept : (d.drivenTo (i + 1)).values.get i = r.value
  driven : (d.drivenTo (i + 1)).bus = (d.drivenTo i).bus ||| r.value
  stays : d.endCycle.bus ||| r.value = d.endCycle.bus
  flags : (d.drivenTo (i + 1)).flags = ⟨r.carry, decide (r.value = 0)⟩
  last : (∀ j, i < j → ¬d.Computes j) → d.endCycle.flags = ⟨r.carry, decide (r.value = 0)⟩

theorem results_of_drive {d : Datapath c δ} {i : Fin c.size} {r : Arithmetic}
    (hdrive : (d.active.get i).drive = true)
    (h : (d.beforeDrive i).drive i = (d.beforeDrive i).putResult i r) : d.Results i r := by
  have visited : d.drivenTo (i + 1) = (d.beforeDrive i).putResult i r := by
    rw [drivenTo_succ, drivePhase_eq_count, active_drivenTo, if_pos hdrive]
    exact h
  have driven : (d.drivenTo (i + 1)).bus = (d.drivenTo i).bus ||| r.value := by
    rw [visited, ← bus_count (d.drivenTo i) i]
    rfl
  have flags : (d.drivenTo (i + 1)).flags = ⟨r.carry, decide (r.value = 0)⟩ := by
    rw [visited]
    rfl
  refine ⟨?_, driven, ?_, flags, fun later => ?_⟩
  · rw [visited]
    exact (get_set _ i i _).trans (if_pos rfl)
  · refine bus_endCycle_of_driven i.isLt ?_
    rw [driven, Nat.or_assoc, Nat.or_self]
  · rw [flags_endCycle_of_last i.isLt fun j hj => later j hj, flags]

/-- Flags tell about the last result. Every slot that computes comes to the exact sum or difference
of its operands as they are when it is its turn, reduced to a word, with the carry or the borrow;
the flags at the end are those of the last one, or as they were if there is none. A difference
undoes a sum, and a sum a difference, with the same carry. -/
theorem flags_exact {d : Datapath c δ} (hvalues : ∀ i : Fin c.size, d.values.get i < c.wordSize)
    (hmemory : ∀ i : Fin c.memorySize, d.memory.get i < c.wordSize) :
    (∀ i lhs rhs, (d.active.get i).drive = true →
      (c.wiring.slots.get i).kind = .adder lhs rhs →
        let a := (d.beforeDrive i).values.get lhs
        let b := (d.beforeDrive i).values.get rhs
        d.Results i ⟨(a + b) % c.wordSize, decide (c.wordSize ≤ a + b)⟩) ∧
    (∀ i lhs rhs, (d.active.get i).drive = true →
      (c.wiring.slots.get i).kind = .subtractor lhs rhs →
        let a := (d.beforeDrive i).values.get lhs
        let b := (d.beforeDrive i).values.get rhs
        ∃ value : Word, (value : Int) = ((a : Int) - b) % c.wordSize ∧
          d.Results i ⟨value, decide (a < b)⟩) ∧
    ((∀ i, ¬d.Computes i) → d.endCycle.flags = d.flags) ∧
    ∀ a b : Word, a < c.wordSize → b < c.wordSize →
      Arithmetic.sub c.wordSize (Arithmetic.add c.wordSize a b).value b =
        ⟨a, (Arithmetic.add c.wordSize a b).carry⟩ ∧
      Arithmetic.add c.wordSize (Arithmetic.sub c.wordSize a b).value b =
        ⟨a, (Arithmetic.sub c.wordSize a b).carry⟩ := by
  have sound := sound_beginCycle hvalues hmemory
  have hpos := c.wordSize_pos
  have hle : c.wordSize ≤ addressSpace := c.valid.wordSize_le
  refine ⟨fun i lhs rhs hdrive hkind => ?_, fun i lhs rhs hdrive hkind => ?_, fun idle => ?_,
    fun a b ha hb => ⟨Arithmetic.sub_add hle ha hb, Arithmetic.add_sub hle ha hb⟩⟩
  · refine results_of_drive hdrive ?_
    rw [drive_adder hkind, Arithmetic.add_eq hpos hle]
  · have operand := (sound_beginCycle_beforeDrive sound i).values_lt
    refine ⟨_, Arithmetic.sub_value_eq hle (operand rhs), results_of_drive hdrive ?_⟩
    rw [drive_subtractor hkind, Arithmetic.sub_eq hpos hle]
  · exact flags_endCycle_of_last (Nat.zero_le _) fun i _ => idle i

end Datapath

def chainedComponents : List Component :=
  [.register "a" .full, .register "b" .full, .ofKind "sum" (.adder "a" "b"),
    .ofKind "difference" (.subtractor "sum" "b")]

def chainedWiring : Wiring where
  size := 4
  slots := #v[⟨"a", .register, .full, none⟩, ⟨"b", .register, .full, none⟩,
    ⟨"sum", .adder 0 1, { drive := true }, none⟩,
    ⟨"difference", .subtractor 2 1, { drive := true }, none⟩]
  names := [("difference", .single 3), ("sum", .single 2), ("b", .single 1), ("a", .single 0)]

theorem ofComponents_chained : Wiring.ofComponents chainedComponents = .ok chainedWiring := by
  rfl

namespace Datapath

def chained : Datapath ⟨.fullMemory, fullMemory_valid, chainedWiring⟩ QueueDevice :=
  { initial with
    values := #v[200, 100, 0, 0]
    active := #v[.none, .none, { drive := true }, { drive := true }] }

theorem flags_exact_chained : Wiring.ofComponents chainedComponents = .ok chainedWiring ∧
    chained.endCycle.flags = ⟨true, false⟩ ∧ (chained.drivenTo 4).values.get (3 : Fin 4) = 200 := by
  have hvalues : ∀ i, chained.values.get i < 256 := by decide
  have hmemory : ∀ i, chained.memory.get i < 256 :=
    (sound_initial (δ := QueueDevice)).memory_lt
  obtain ⟨-, differences, -, -⟩ := flags_exact hvalues hmemory
  obtain ⟨value, hvalue, results⟩ := differences (3 : Fin 4) (2 : Fin 4) (1 : Fin 4) rfl rfl
  have left : (chained.beforeDrive (3 : Fin 4)).values.get (2 : Fin 4) = 44 := by decide +kernel
  have right : (chained.beforeDrive (3 : Fin 4)).values.get (1 : Fin 4) = 100 := by decide +kernel
  obtain rfl : value = 200 := by
    rw [left, right] at hvalue
    exact Int.ofNat_inj.mp hvalue
  have last := results.last fun j hj => absurd hj (by revert j; decide)
  rw [left, right] at last
  exact ⟨ofComponents_chained, last, results.kept⟩

end Datapath

end BusMachine
