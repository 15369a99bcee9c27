import BusMachine.Proofs.Datapath.Assertion
import BusMachine.Proofs.Wiring.Placement
import Mathlib.Tactic.Ring

/-!
Registers that count. A cycle that asserts nothing but the line `incr` of a register adds one to the
number that it holds, modulo the number of values of its one or two words, and changes nothing else.
-/

namespace BusMachine

def Place.range {n : Nat} (wordSize : Nat) : Place n → Nat
  | .single _ => wordSize
  | .double _ _ => wordSize ^ 2

/-- Slots that count together: one without a carry, or two with a carry between them. -/
inductive Place.Counts (w : Wiring) : Place w.size → Prop
  | single {slot : Fin w.size} (carryInto : (w.slots.get slot).carryInto = none) :
    Counts w (.single slot)
  | double {low high : Fin w.size} (distinct : low ≠ high)
    (carryInto : (w.slots.get low).carryInto = some high) : Counts w (.double low high)

def Place.first {n : Nat} : Place n → Fin n
  | .single slot | .double slot _ => slot

theorem Place.targets_incr {n : Nat} (place : Place n) : place.targets .incr = [place.first] := by
  cases place <;> rfl

namespace Datapath

variable {c : Circuit} {δ : Type}

theorem double_succ_mod {wordSize low high : Nat} (hlow : low < wordSize)
    (hhigh : high < wordSize) :
    (low + 1) % wordSize +
        (if (low + 1) % wordSize = 0 then (high + 1) % wordSize else high) * wordSize =
      (low + high * wordSize + 1) % wordSize ^ 2 := by
  by_cases carry : low + 1 = wordSize
  · subst carry
    have total : low + high * (low + 1) + 1 = (high + 1) * (low + 1) := by ring
    rw [Nat.mod_self, if_pos rfl, Nat.zero_add, total, pow_two, Nat.mul_mod_mul_right]
  · have below : low + 1 < wordSize := by omega
    have bound : low + high * wordSize + 1 < wordSize ^ 2 := by
      rw [pow_two, Nat.add_right_comm]
      exact add_mul_lt_sq below hhigh
    rw [Nat.mod_eq_of_lt below, if_neg (Nat.succ_ne_zero low), Nat.mod_eq_of_lt bound]
    omega

theorem get_increment_of_carry {low high : Fin c.size} (distinct : low ≠ high)
    (h : (c.wiring.slots.get low).carryInto = some high) (d : Datapath c δ) (i : Fin c.size) :
    (d.increment low).values.get i =
      if low = i then (d.values.get low + 1) % c.wordSize
      else if high = i ∧ (d.values.get low + 1) % c.wordSize = 0 then
        (d.values.get high + 1) % c.wordSize
      else d.values.get i := by
  change c.wiring.slots[low].carryInto = some high at h
  have kept : (d.values.set low ((d.values.get low + 1) % c.wordSize) low.isLt).get high =
      d.values.get high := by
    rw [get_set, if_neg distinct]
  have counted : (d.increment low).values =
      if (d.values.get low + 1) % c.wordSize = 0 then
        (d.values.set low ((d.values.get low + 1) % c.wordSize) low.isLt).set high
          ((d.values.get high + 1) % c.wordSize) high.isLt
      else d.values.set low ((d.values.get low + 1) % c.wordSize) low.isLt := by
    rw [← kept]
    unfold increment
    dsimp only
    rw [h]
    exact apply_ite Datapath.values _ _ _
  rw [counted]
  split
  · rename_i carry
    rw [get_set, get_set]
    grind
  · rename_i carry
    rw [get_set]
    grind

variable {place : Place c.size}

theorem get_increment_of_not_mem (hplace : place.Counts c.wiring) {i : Fin c.size}
    (hi : i ∉ place.slots) (d : Datapath c δ) :
    (d.increment place.first).values.get i = d.values.get i := by
  cases hplace with
  | @single slot carryInto =>
    have hne : slot ≠ i := fun h => hi (h ▸ List.mem_singleton_self slot)
    change (d.increment slot).values.get i = _
    rw [increment_eq carryInto, get_set, if_neg hne]
  | @double low high distinct carryInto =>
    have hne : i ≠ low ∧ i ≠ high := by simpa [Place.slots] using hi
    change (d.increment low).values.get i = _
    rw [get_increment_of_carry distinct carryInto, if_neg hne.1.symm,
      if_neg fun h => hne.2 h.1.symm]

theorem valueAt_increment (hplace : place.Counts c.wiring) {d : Datapath c δ}
    (words : ∀ i, d.values.get i < c.wordSize) :
    (d.increment place.first).valueAt place =
      (d.valueAt place + 1) % place.range c.wordSize := by
  cases hplace with
  | @single slot carryInto =>
    change (d.increment slot).values.get slot = (d.values.get slot + 1) % c.wordSize
    rw [increment_eq carryInto, get_set, if_pos rfl]
  | @double low high distinct carryInto =>
    change (d.increment low).values.get low + (d.increment low).values.get high * c.wordSize =
      (d.values.get low + d.values.get high * c.wordSize + 1) % c.wordSize ^ 2
    rw [get_increment_of_carry distinct carryInto, get_increment_of_carry distinct carryInto,
      if_pos rfl, if_neg distinct, ← double_succ_mod (words low) (words high)]
    simp

theorem words_increment {d : Datapath c δ} (words : ∀ i, d.values.get i < c.wordSize)
    (i j : Fin c.size) : (d.increment i).values.get j < c.wordSize := by
  have next : ∀ n, n % c.wordSize < c.wordSize := fun n => Nat.mod_lt n c.wordSize_pos
  have counted := getElem_set_lt words (next (d.values[i] + 1)) i
  unfold increment
  dsimp only
  split
  · split
    · exact getElem_set_lt counted (next _) _ j
    · exact counted j
  · exact counted j

theorem valueAt_lt_range {d : Datapath c δ} (words : ∀ i, d.values.get i < c.wordSize)
    (place : Place c.size) : d.valueAt place < place.range c.wordSize := by
  cases place with
  | single slot => exact words slot
  | double low high =>
    rw [Place.range, pow_two]
    exact add_mul_lt_sq (words low) (words high)

theorem active_assert_line (d : Datapath c δ) (i : Fin c.size) (signal : Signal) (j : Fin c.size) :
    (d.beginCycle.assert (.line i signal)).active.get j =
      if i = j then Lines.none.insert signal else Lines.none := by
  have empty : ∀ j, d.beginCycle.active.get j = Lines.none := fun j => by
    simp [beginCycle, Vector.get]
  change (d.beginCycle.active.set i ((d.beginCycle.active.get i).insert signal) i.isLt).get j = _
  rw [get_set, empty, empty]

theorem taking_assert_line (d : Datapath c δ) (i : Fin c.size) (signal : Signal)
    {takesPart : Lines → Bool} (silent : takesPart Lines.none = false) :
    taking (d.beginCycle.assert (.line i signal)).active takesPart =
      if takesPart (Lines.none.insert signal) then [i] else [] := by
  unfold taking
  simp only [active_assert_line]
  split
  · rename_i takes
    have only : ∀ j, takesPart (if i = j then Lines.none.insert signal else Lines.none) =
        decide (j = i) := by
      intro j
      by_cases hj : i = j
      · simp [hj, takes]
      · simp [hj, Ne.symm hj, silent]
    simp only [only]
    rw [List.filter_eq, List.count_eq_one_of_mem (List.nodup_finRange _) (List.mem_finRange i),
      List.replicate_one]
  · rename_i idle
    rw [List.filter_eq_nil_iff]
    intro j _
    split
    · exact idle
    · simp [silent]

variable [Device δ]

theorem endCycle_assert_incr (d : Datapath c δ) (i : Fin c.size) :
    (d.beginCycle.assert (.line i .incr)).endCycle =
      (d.beginCycle.assert (.line i .incr)).increment i := by
  have lines : (d.beginCycle.assert (.line i .incr)).active.get i = Lines.none.insert .incr := by
    rw [active_assert_line, if_pos rfl]
  have counted : (d.beginCycle.assert (.line i .incr)).drivePhase i =
      (d.beginCycle.assert (.line i .incr)).increment i :=
    drivePhase_of_incr (by rw [lines]; rfl) (by rw [lines]; rfl)
  rw [endCycle_eq, taking_assert_line d i .incr rfl, taking_assert_line d i .incr rfl,
    taking_assert_line d i .incr rfl]
  exact counted

/-- A datapath in which a place has counted up `n` times and nothing else has changed. -/
structure CountedUp (place : Place c.size) (n : Nat) (d d' : Datapath c δ) : Prop where
  value : d'.valueAt place = (d.valueAt place + n) % place.range c.wordSize
  words : ∀ i, d'.values.get i < c.wordSize
  others : ∀ i ∉ place.slots, d'.values.get i = d.values.get i
  flags : d'.flags = d.flags
  memory : d'.memory = d.memory
  ports : d'.ports = d.ports

omit [Device δ] in
theorem CountedUp.zero {d : Datapath c δ} (words : ∀ i, d.values.get i < c.wordSize)
    (place : Place c.size) : CountedUp place 0 d d where
  value := (Nat.mod_eq_of_lt (valueAt_lt_range words place)).symm
  words := words
  others _ _ := rfl
  flags := rfl
  memory := rfl
  ports := rfl

omit [Device δ] in
theorem CountedUp.add {d d' d'' : Datapath c δ} {m n : Nat} (first : CountedUp place m d d')
    (second : CountedUp place n d' d'') : CountedUp place (m + n) d d'' where
  value := by rw [second.value, first.value, Nat.mod_add_mod, Nat.add_assoc]
  words := second.words
  others i hi := (second.others i hi).trans (first.others i hi)
  flags := second.flags.trans first.flags
  memory := second.memory.trans first.memory
  ports := second.ports.trans first.ports

theorem countedUp_endCycle (hplace : place.Counts c.wiring) {d : Datapath c δ}
    (words : ∀ i, d.values.get i < c.wordSize) :
    CountedUp place 1 d (d.beginCycle.assert (.line place.first .incr)).endCycle := by
  rw [endCycle_assert_incr]
  have asserted : ∀ i, (d.beginCycle.assert (.line place.first .incr)).values.get i < c.wordSize :=
    words
  obtain ⟨values, frame⟩ :=
    (d.beginCycle.assert (.line place.first .incr)).increment_frame place.first
  refine ⟨valueAt_increment hplace asserted, words_increment asserted _, ?_, ?_, ?_, ?_⟩
  · intro i hi
    exact get_increment_of_not_mem hplace hi (d.beginCycle.assert (.line place.first .incr))
  all_goals
    rw [frame]
    rfl

theorem exists_countedUp {components : List Component}
    (hw : Wiring.ofComponents components = .ok c.wiring) {name : String}
    (hname : c.wiring.place? name = some place) (hplace : place.Counts c.wiring)
    (hincr : place.Supports c.wiring .incr) {d : Datapath c δ}
    (words : ∀ i, d.values.get i < c.wordSize) (n : Nat) :
    ∃ d', d.cyclesLines (List.replicate n [(name, "incr")]) = .ok d' ∧
      CountedUp place n d d' := by
  have action := Sequencer.resolveAction_line hname hincr
  rw [Place.targets_incr] at action
  have resolved : Sequencer.resolveStep c.wiring [.line name .incr] =
      .ok [.line place.first .incr] :=
    Sequencer.resolveStep_ok_iff.mpr ⟨_, .cons action .nil, rfl⟩
  induction n generalizing d with
  | zero => exact ⟨d, rfl, .zero words place⟩
  | succ n ih =>
    have once := countedUp_endCycle hplace words
    obtain ⟨d', hd', more⟩ := ih once.words
    refine ⟨d', ?_, Nat.add_comm 1 n ▸ once.add more⟩
    have cycle := cycleLines_written hw (by simp [NamedAction.literalBelow]) resolved d
    unfold cyclesLines
    rw [List.replicate_succ, List.foldlM_cons]
    exact bind_eq_ok_iff.mpr ⟨_, cycle, hd'⟩

section Registers

variable {components : List Component} (hw : Wiring.ofComponents components = .ok c.wiring)
include hw

omit [Device δ] in
theorem exists_counting_place {register : Component} (hmem : register ∈ components)
    (hincr : register.lines.incr = true) :
    ∃ place, c.wiring.place? register.name = some place ∧ place.Counts c.wiring ∧
      place.Supports c.wiring .incr ∧
      place.range c.wordSize = c.wordSize ^ register.width := by
  cases hdouble : register.double with
  | false =>
    obtain ⟨slot, at_slot⟩ := Wiring.exists_singleAt hw hmem hdouble
    refine ⟨.single slot, at_slot.place, .single at_slot.carryInto, ?_, ?_⟩
    · exact (congrArg Lines.incr at_slot.lines).trans hincr
    · rw [Component.width, hdouble, if_neg Bool.false_ne_true, pow_one]
      rfl
  | true =>
    obtain ⟨k, hk⟩ := List.getElem?_of_mem hmem
    obtain ⟨low, high, -, at_slots⟩ := Wiring.exists_doubleAt hw hk hdouble
    refine ⟨.double low high, at_slots.place, ?_, ⟨?_, fun h => absurd rfl h⟩, ?_⟩
    · exact .double at_slots.low_ne_high (congrArg Slot.carryInto at_slots.lowSlot)
    · exact (congrArg (·.lines.incr) at_slots.lowSlot).trans hincr
    · rw [Component.width, hdouble, if_pos rfl]
      rfl

/-- Cycles that assert nothing but the line `incr` of a register each add one to the number that it
holds, modulo the number of values of its one or two words, so that this many cycles bring it back
to its start. Every other slot, the flags, memory and the ports stay as they are. -/
theorem increments_exact {register : Component} (hmem : register ∈ components)
    (hincr : register.lines.incr = true) {d : Datapath c δ}
    (words : ∀ i, d.values.get i < c.wordSize) (n : Nat) :
    ∃ place value d', c.wiring.place? register.name = some place ∧
      d.valueOf register.name = .ok value ∧
      d.cyclesLines (List.replicate n [(register.name, "incr")]) = .ok d' ∧
      d'.valueOf register.name = .ok ((value + n) % c.wordSize ^ register.width) ∧
      (n = c.wordSize ^ register.width → d'.valueOf register.name = d.valueOf register.name) ∧
      (∀ i ∉ place.slots, d'.values.get i = d.values.get i) ∧
      d'.flags = d.flags ∧ d'.memory = d.memory ∧ d'.ports = d.ports := by
  obtain ⟨place, hplace, hcounts, hsupports, hrange⟩ := exists_counting_place hw hmem hincr
  obtain ⟨d', hd', counted⟩ := exists_countedUp hw hplace hcounts hsupports words n
  have read : ∀ d : Datapath c δ, d.valueOf register.name = .ok (d.valueAt place) := by
    intro d
    unfold valueOf
    rw [hplace]
  have value := counted.value
  have inside := valueAt_lt_range words place
  rw [hrange] at value inside
  refine ⟨place, d.valueAt place, d', hplace, read d, hd', ?_, fun hn => ?_, counted.others,
    counted.flags, counted.memory, counted.ports⟩
  · rw [read, value]
  · rw [read, read, value, hn, Nat.add_mod_right, Nat.mod_eq_of_lt inside]

end Registers

def lastCount : Datapath doubleCircuit QueueDevice :=
  { initial with values := #v[255, 255, 1, 2, 0, 7] }

theorem increments_exact_lastCount : lastCount.valueOf "pc" = .ok 65535 ∧
    ∃ d', lastCount.cyclesLines (List.replicate 65539 [("pc", "incr")]) = .ok d' ∧
      d'.valueOf "pc" = .ok 2 ∧ d'.memory = lastCount.memory := by
  have start : lastCount.valueOf "pc" = .ok 65535 := rfl
  have member : { name := "pc", double := true } ∈ doubleComponents := List.mem_cons_self
  obtain ⟨place, value, d', -, hvalue, hd', hread, -, -, -, hmemory, -⟩ :=
    increments_exact (c := doubleCircuit) ofComponents_double member rfl
      (d := lastCount) (by decide) 65539
  obtain rfl := Except.ok.inj (start.symm.trans hvalue)
  exact ⟨start, d', hd', hread, hmemory⟩

end Datapath

end BusMachine
