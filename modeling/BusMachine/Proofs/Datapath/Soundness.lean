import BusMachine.Datapath
import BusMachine.Proofs.Sequencer.Resolution
import BusMachine.Proofs.Wiring.Resolution
import Mathlib.Logic.Relation
import Mathlib.Tactic.NormNum

/-!
What stays true of a datapath while it is driven: words stay below the word size, and only lines
that a slot has are asserted. `Step` lists the single changes that a datapath undergoes, down to one
slot counting, driving, taking over or going back to 0, so that an invariant of `Step` holds in the
middle of a cycle as well.
-/

namespace BusMachine

theorem Circuit.wordSize_pos (c : Circuit) : 0 < c.wordSize := c.valid.wordSize_pos

theorem Circuit.wordSize_mul_self_le (c : Circuit) : c.wordSize * c.wordSize ≤ 2 ^ 32 := by
  have h : c.wordSize ≤ 65536 := c.valid.wordSize_le
  calc
    c.wordSize * c.wordSize ≤ 65536 * 65536 := Nat.mul_le_mul h h
    _ = 2 ^ 32 := by norm_num

namespace Datapath

variable {c : Circuit} {δ : Type}

/-- Every word is in range and every asserted line belongs to its slot. -/
structure Sound (d : Datapath c δ) : Prop where
  values_lt : ∀ i : Fin c.size, d.values.get i < c.wordSize
  memory_lt : ∀ i : Fin c.memorySize, d.memory.get i < c.wordSize
  active_supported : ∀ (i : Fin c.size) (line : Signal),
    (d.active.get i).contains line = true → (c.wiring.slots.get i).lines.contains line = true

theorem add_mul_lt_sq {wordSize low high : Nat} (hlow : low < wordSize) (hhigh : high < wordSize) :
    low + high * wordSize < wordSize * wordSize :=
  calc
    low + high * wordSize < wordSize + high * wordSize := Nat.add_lt_add_right hlow _
    _ = (high + 1) * wordSize := by rw [Nat.succ_mul, Nat.add_comm]
    _ ≤ wordSize * wordSize := Nat.mul_le_mul_right wordSize hhigh

theorem valueAt_lt_sq {d : Datapath c δ} (h : d.Sound) (place : Place c.size) :
    d.valueAt place < c.wordSize * c.wordSize := by
  have hw := c.wordSize_pos
  cases place with
  | single slot =>
    have hsq : c.wordSize ≤ c.wordSize * c.wordSize := Nat.le_mul_of_pos_left _ hw
    exact Nat.lt_of_lt_of_le (h.values_lt slot) hsq
  | double low high => exact add_mul_lt_sq (h.values_lt low) (h.values_lt high)

theorem valueAt_le {d : Datapath c δ} (h : d.Sound) (place : Place c.size) :
    d.valueAt place ≤ 2 ^ 32 - 1 := by
  have hvalue := valueAt_lt_sq h place
  have hspace := c.wordSize_mul_self_le
  omega

theorem get_set {α : Type} {n : Nat} (xs : Vector α n) (slot i : Fin n) (x : α) :
    (xs.set slot x slot.isLt).get i = if slot = i then x else xs.get i := by
  have read : (xs.set slot x slot.isLt).get i = if slot.val = i.val then x else xs.get i :=
    Vector.getElem_set ..
  rw [read]
  simp only [Fin.ext_iff]

theorem sound_initial : (initial : Datapath c δ).Sound where
  values_lt i := by simpa [initial, Vector.get] using c.wordSize_pos
  memory_lt i := by simpa [initial, Vector.get] using c.wordSize_pos
  active_supported i line hline := by simp [initial, Vector.get] at hline

theorem sound_beginCycle {d : Datapath c δ}
    (hvalues : ∀ i : Fin c.size, d.values.get i < c.wordSize)
    (hmemory : ∀ i : Fin c.memorySize, d.memory.get i < c.wordSize) : d.beginCycle.Sound where
  values_lt := hvalues
  memory_lt := hmemory
  active_supported i line hline := by simp [beginCycle, Vector.get] at hline

theorem Sound.beginCycle {d : Datapath c δ} (h : d.Sound) : d.beginCycle.Sound :=
  sound_beginCycle h.values_lt h.memory_lt

theorem Sound.assert {d : Datapath c δ} (h : d.Sound) {a : Action c.size}
    (ha : a.Supported c.wiring) : (d.assert a).Sound := by
  cases a with
  | halt => exact ⟨h.values_lt, h.memory_lt, h.active_supported⟩
  | literal value => exact ⟨h.values_lt, h.memory_lt, h.active_supported⟩
  | line slot signal =>
    refine ⟨h.values_lt, h.memory_lt, fun i line hline => ?_⟩
    change ((d.active.set slot ((d.active.get slot).insert signal) slot.isLt).get i).contains line =
      true at hline
    rw [get_set] at hline
    split at hline
    · rename_i hi
      subst hi
      rw [Lines.contains_insert, Bool.or_eq_true, decide_eq_true_eq] at hline
      obtain rfl | hline := hline
      · exact ha
      · exact h.active_supported slot line hline
    · exact h.active_supported i line hline

theorem getElem_set_lt {n bound word : Nat} {words : Vector Word n}
    (h : ∀ i : Fin n, words.get i < bound) (hword : word < bound) (slot i : Fin n) :
    (words.set slot word slot.isLt).get i < bound := by
  rw [get_set]
  split
  · exact hword
  · exact h i

theorem Sound.setValue {d : Datapath c δ} (h : d.Sound) {word : Word} (hword : word < c.wordSize)
    (i : Fin c.size) : { d with values := d.values.set i word i.isLt }.Sound :=
  ⟨getElem_set_lt h.values_lt hword i, h.memory_lt, h.active_supported⟩

theorem Sound.put {d : Datapath c δ} (h : d.Sound) {word : Word} (hword : word < c.wordSize)
    (i : Fin c.size) : (d.put i word).Sound :=
  ⟨getElem_set_lt h.values_lt hword i, h.memory_lt, h.active_supported⟩

theorem Sound.increment {d : Datapath c δ} (h : d.Sound) (i : Fin c.size) :
    (d.increment i).Sound := by
  have next : ∀ n, n % c.wordSize < c.wordSize := fun n => Nat.mod_lt n c.wordSize_pos
  have low := getElem_set_lt h.values_lt (next (d.values[i] + 1)) i
  unfold Datapath.increment
  dsimp only
  split
  · split
    · exact ⟨getElem_set_lt low (next _) _, h.memory_lt, h.active_supported⟩
    · exact ⟨low, h.memory_lt, h.active_supported⟩
  · exact ⟨low, h.memory_lt, h.active_supported⟩

theorem Sound.drive [Device δ] {d : Datapath c δ} (h : d.Sound) (i : Fin c.size) :
    (d.drive i).Sound := by
  have hw := c.wordSize_pos
  unfold Datapath.drive
  split
  · exact ⟨h.values_lt, h.memory_lt, h.active_supported⟩
  · exact h.put (h.memory_lt _) i
  · rename_i selector hkind
    have bare : { d with ports := (d.ports.read (d.portNumber selector)).2 }.Sound :=
      ⟨h.values_lt, h.memory_lt, h.active_supported⟩
    exact bare.put (Nat.mod_lt _ hw) i
  · rename_i lhs rhs hkind
    have sum := h.put (Arithmetic.add_value_lt hw d.values[lhs] d.values[rhs]) i
    exact ⟨sum.values_lt, sum.memory_lt, sum.active_supported⟩
  · rename_i lhs rhs hkind
    have difference := h.put (Arithmetic.sub_value_lt hw d.values[lhs] d.values[rhs]) i
    exact ⟨difference.values_lt, difference.memory_lt, difference.active_supported⟩

theorem Sound.latch [Device δ] {d : Datapath c δ} (h : d.Sound) {word : Word}
    (hword : word < c.wordSize) (i : Fin c.size) : (d.latch word i).Sound := by
  have stored := getElem_set_lt h.values_lt hword i
  unfold Datapath.latch
  split
  · exact h.setValue hword i
  · exact ⟨stored, getElem_set_lt h.memory_lt hword _, h.active_supported⟩
  · exact ⟨stored, h.memory_lt, h.active_supported⟩
  · exact h
  · exact h

theorem Sound.reset {d : Datapath c δ} (h : d.Sound) : d.reset.Sound where
  values_lt i := by simpa [Datapath.reset, Vector.get] using c.wordSize_pos
  memory_lt := h.memory_lt
  active_supported := h.beginCycle.active_supported

theorem Sound.writeCell {d d' : Datapath c δ} (h : d.Sound) {address : Nat} {value : Word}
    (hok : d.writeCell address value = .ok d') : d'.Sound := by
  unfold Datapath.writeCell at hok
  split at hok
  · rename_i hlt
    cases hok
    have hvalue := Nat.mod_lt value c.wordSize_pos
    exact ⟨h.values_lt, getElem_set_lt h.memory_lt hvalue ⟨address, hlt⟩, h.active_supported⟩
  · cases hok

theorem Sound.load {d d' : Datapath c δ} (h : d.Sound) {image : Array Word}
    (hok : d.load image = .ok d') : d'.Sound := by
  unfold Datapath.load at hok
  split at hok
  · cases hok
    refine ⟨h.values_lt, fun i => ?_, h.active_supported⟩
    simpa [Vector.get] using Nat.mod_lt _ c.wordSize_pos
  · cases hok

/-- One change of a datapath. A slot takes over a word only if its line asks for it. -/
inductive Step [Device δ] : Datapath c δ → Datapath c δ → Prop
  | beginCycle (d : Datapath c δ) : Step d d.beginCycle
  | assert (d : Datapath c δ) {a : Action c.size} (ha : a.Supported c.wiring) : Step d (d.assert a)
  | increment (d : Datapath c δ) (i : Fin c.size) : Step d (d.increment i)
  | drive (d : Datapath c δ) (i : Fin c.size) : Step d (d.drive i)
  | latch (d : Datapath c δ) {i : Fin c.size} {word : Word} (hline : (d.active.get i).latch = true)
      (hword : word < c.wordSize) : Step d (d.latch word i)
  | clear (d : Datapath c δ) (i : Fin c.size) : Step d { d with values := d.values.set i 0 i.isLt }
  | reset (d : Datapath c δ) : Step d d.reset
  | writeCell {d d' : Datapath c δ} {address : Nat} {value : Word}
      (hok : d.writeCell address value = .ok d') : Step d d'
  | load {d d' : Datapath c δ} {image : Array Word} (hok : d.load image = .ok d') : Step d d'
  | bind (d : Datapath c δ) (ports : Ports δ) : Step d { d with ports }

variable [Device δ]

theorem Step.sound {d d' : Datapath c δ} (step : Step d d') (h : d.Sound) : d'.Sound := by
  cases step with
  | beginCycle => exact h.beginCycle
  | assert ha => exact h.assert ha
  | increment i => exact h.increment i
  | drive i => exact h.drive i
  | latch _ hword => exact h.latch hword _
  | clear i => exact h.setValue c.wordSize_pos i
  | reset => exact h.reset
  | writeCell hok => exact h.writeCell hok
  | load hok => exact h.load hok
  | bind => exact ⟨h.values_lt, h.memory_lt, h.active_supported⟩

abbrev Steps : Datapath c δ → Datapath c δ → Prop := Relation.ReflTransGen Step

theorem Steps.sound {d d' : Datapath c δ} (steps : Steps d d') (h : d.Sound) : d'.Sound := by
  induction steps with
  | refl => exact h
  | tail _ step ih => exact step.sound ih

theorem steps_foldl {α : Type} {f : Datapath c δ → α → Datapath c δ} {l : List α}
    (step : ∀ d, ∀ a ∈ l, Steps d (f d a)) (d : Datapath c δ) : Steps d (l.foldl f d) := by
  induction l generalizing d with
  | nil => exact .refl
  | cons a l ih =>
    have first := step d a List.mem_cons_self
    have rest := ih (fun d b hb => step d b (List.mem_cons_of_mem _ hb)) (f d a)
    exact first.trans rest

theorem steps_assertAll {actions : List (Action c.size)}
    (h : ∀ a ∈ actions, a.Supported c.wiring) (d : Datapath c δ) : Steps d (d.assertAll actions) :=
  steps_foldl (fun d a ha => .single (.assert d (h a ha))) d

theorem steps_drivePhase (d : Datapath c δ) (i : Fin c.size) : Steps d (d.drivePhase i) := by
  have counted : Steps d (if d.active[i].incr then d.increment i else d) := by
    split
    · exact .single (.increment d i)
    · exact .refl
  unfold drivePhase
  dsimp only
  split
  · exact counted.tail (.drive _ i)
  · exact counted

theorem steps_latchPhase {word : Word} (hword : word < c.wordSize) (d : Datapath c δ)
    (i : Fin c.size) : Steps d (d.latchPhase word i) := by
  unfold latchPhase
  split
  · rename_i hline
    exact .single (.latch d hline hword)
  · exact .refl

theorem steps_resetPhase (d : Datapath c δ) (i : Fin c.size) : Steps d (d.resetPhase i) := by
  unfold resetPhase
  split
  · exact .single (.clear d i)
  · exact .refl

theorem steps_endCycle (d : Datapath c δ) : Steps d d.endCycle := by
  unfold endCycle
  simp only [Fin.foldl_eq_finRange_foldl]
  have driven := steps_foldl (l := List.finRange c.size) (fun d i _ => steps_drivePhase d i) d
  have hword := Nat.mod_lt ((List.finRange c.size).foldl drivePhase d).bus c.wordSize_pos
  have latched := steps_foldl (l := List.finRange c.size)
    (fun d i _ => steps_latchPhase hword d i) ((List.finRange c.size).foldl drivePhase d)
  have cleared := steps_foldl (l := List.finRange c.size)
    (fun d i _ => steps_resetPhase (δ := δ) d i)
  exact (driven.trans latched).trans (cleared _)

section Cycles

variable {set : InstructionSet} {microcode : List NamedRoutine} {q : Sequencer c.wiring}
  (hq : Sequencer.ofMicrocode c.wiring set microcode = .ok q)
include hq

theorem steps_asserted (d : Datapath c δ) :
    Steps d ((d.beginCycle.assertAll
      (q.actions d.values[q.instruction] d.values[q.tick] d.flags)).assert
        (.line q.tick .incr)) := by
  have begun : Steps d d.beginCycle := .single (.beginCycle d)
  have supported := Sequencer.actions_supported hq d.values[q.instruction] d.values[q.tick] d.flags
  have asserted := steps_assertAll supported d.beginCycle
  exact (begun.trans asserted).tail (.assert _ (Sequencer.tick_incr hq))

theorem steps_cycle (d : Datapath c δ) : Steps d (q.cycle d).2 :=
  (steps_asserted hq d).trans (steps_endCycle _)

end Cycles

end Datapath

end BusMachine
