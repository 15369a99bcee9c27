import BusMachine.Proofs.Datapath.Assertion
import BusMachine.Proofs.Wiring.Placement

/-!
Moves from registers to registers. The bus carries one word: what several slots drive is combined by
OR, and every slot that latches takes over the same word. A register of two words is therefore moved
half by half; where its whole name is asserted, both halves of the target get the OR of its halves.
-/

namespace BusMachine

theorem Place.targets_of_ne_incr {n : Nat} (place : Place n) {signal : Signal}
    (h : signal ≠ .incr) : place.targets signal = place.slots := by
  cases place with
  | single slot => rfl
  | double low high =>
    cases signal with
    | incr => exact absurd rfl h
    | latch | drive | reset => rfl

namespace Datapath

variable {c : Circuit} {δ : Type}

def moves {n : Nat} (sources targets : List (Fin n)) : List (Action n) :=
  sources.map (.line · .drive) ++ targets.map (.line · .latch)

/-- The word that slots leave on an empty bus. -/
def combined (d : Datapath c δ) (slots : List (Fin c.size)) : Word :=
  slots.foldl (fun word i => word ||| d.values.get i) 0

theorem combined_single (d : Datapath c δ) (slot : Fin c.size) :
    d.combined [slot] = d.values.get slot :=
  Nat.zero_or _

theorem combined_double (d : Datapath c δ) (low high : Fin c.size) :
    d.combined [low, high] = d.values.get low ||| d.values.get high := by
  simp only [combined, List.foldl_cons, List.foldl_nil, Nat.zero_or]

theorem testBit_foldl_or (d : Datapath c δ) (slots : List (Fin c.size)) (word k : Nat) :
    (slots.foldl (fun word i => word ||| d.values.get i) word).testBit k = true ↔
      word.testBit k = true ∨ ∃ i ∈ slots, (d.values.get i).testBit k = true := by
  induction slots generalizing word with
  | nil => simp
  | cons i rest ih => simp [ih, Nat.testBit_or, or_assoc]

theorem combined_eq_of_mem_iff {slots slots' : List (Fin c.size)}
    (h : ∀ i, i ∈ slots ↔ i ∈ slots') (d : Datapath c δ) :
    d.combined slots = d.combined slots' := by
  refine Nat.eq_of_testBit_eq fun k => Bool.eq_iff_iff.mpr ?_
  simp only [combined, testBit_foldl_or, h]

section Phases

variable {sources targets : List (Fin c.size)}

theorem assertAll_moves (sources targets : List (Fin c.size)) (d : Datapath c δ) :
    ∃ active, d.beginCycle.assertAll (moves sources targets) = { d.beginCycle with active } ∧
      ∀ i signal, (active.get i).contains signal = true ↔
        signal = .drive ∧ i ∈ sources ∨ signal = .latch ∧ i ∈ targets := by
  have asserted : d.beginCycle.assertAll (moves sources targets) =
      d.beginCycle.withAsserted ((moves sources targets).foldl Asserted.and {}) :=
    withAsserted_assertAll d.beginCycle (moves sources targets) {}
  have bus : ((moves sources targets).foldl Asserted.and {}).bus = 0 := by
    refine Nat.eq_of_testBit_eq fun k => Bool.eq_iff_iff.mpr ?_
    rw [Asserted.testBit_bus_foldl]
    simp [moves]
  have halting : ((moves sources targets).foldl Asserted.and {}).halting = false := by
    rw [Asserted.halting_foldl]
    simp [moves]
  refine ⟨((moves sources targets).foldl Asserted.and {}).active, ?_, fun i signal => ?_⟩
  · rw [asserted, withAsserted, bus, halting]
    rfl
  · have empty : (({} : Asserted c.size).active.get i).contains signal = false := by
      simp [Vector.get]
    rw [Asserted.contains_foldl, empty, Bool.false_or, decide_eq_true_iff]
    simp only [moves, List.mem_append, List.mem_map, Action.line.injEq]
    grind

theorem mem_taking {active : Vector Lines c.size} {takesPart : Lines → Bool} {i : Fin c.size} :
    i ∈ taking active takesPart ↔ takesPart (active.get i) = true := by
  simp [taking]

variable [Device δ]

theorem foldl_drivePhase_registers (slots : List (Fin c.size)) {d : Datapath c δ}
    (registers : ∀ i ∈ slots, (c.wiring.slots.get i).kind = .register)
    (drive : ∀ i ∈ slots, (d.active.get i).drive = true)
    (incr : ∀ i ∈ slots, (d.active.get i).incr = false) :
    slots.foldl drivePhase d =
      { d with bus := slots.foldl (fun word i => word ||| d.values.get i) d.bus } := by
  induction slots generalizing d with
  | nil => rfl
  | cons i rest ih =>
    have first : d.drivePhase i = { d with bus := d.bus ||| d.values.get i } := by
      rw [drivePhase_of_drive (incr i List.mem_cons_self) (drive i List.mem_cons_self),
        drive_register (registers i List.mem_cons_self)]
    rw [List.foldl_cons, first]
    exact ih (fun j hj => registers j (List.mem_cons_of_mem i hj))
      (fun j hj => drive j (List.mem_cons_of_mem i hj))
      (fun j hj => incr j (List.mem_cons_of_mem i hj))

theorem foldl_latchPhase_registers (slots : List (Fin c.size)) {d : Datapath c δ}
    (registers : ∀ i ∈ slots, (c.wiring.slots.get i).kind = .register)
    (latch : ∀ i ∈ slots, (d.active.get i).latch = true) (word : Word) :
    slots.foldl (latchPhase word) d =
      { d with
        values := slots.foldl (fun values (i : Fin c.size) => values.set i word i.isLt)
          d.values } := by
  induction slots generalizing d with
  | nil => rfl
  | cons i rest ih =>
    have first : d.latchPhase word i = { d with values := d.values.set i word i.isLt } := by
      rw [latchPhase_of_latch (latch i List.mem_cons_self),
        latch_register (registers i List.mem_cons_self)]
    rw [List.foldl_cons, first]
    exact ih (fun j hj => registers j (List.mem_cons_of_mem i hj))
      (fun j hj => latch j (List.mem_cons_of_mem i hj))

omit [Device δ] in
theorem get_foldl_set_of_not_mem {n : Nat} {slots : List (Fin n)} {i : Fin n} (h : i ∉ slots)
    (words : Vector Word n) (word : Word) :
    (slots.foldl (fun words j => words.set j word j.isLt) words).get i = words.get i := by
  induction slots generalizing words with
  | nil => rfl
  | cons j rest ih =>
    rw [List.mem_cons, not_or] at h
    rw [List.foldl_cons, ih h.2, get_set, if_neg (Ne.symm h.1)]

omit [Device δ] in
theorem get_foldl_set_of_mem {n : Nat} {slots : List (Fin n)} {i : Fin n} (h : i ∈ slots)
    (words : Vector Word n) (word : Word) :
    (slots.foldl (fun words j => words.set j word j.isLt) words).get i = word := by
  induction slots generalizing words with
  | nil => cases h
  | cons j rest ih =>
    rw [List.foldl_cons]
    by_cases hi : i ∈ rest
    · exact ih hi _
    · have hj : j = i := ((List.mem_cons.mp h).resolve_right hi).symm
      rw [get_foldl_set_of_not_mem hi, get_set, if_pos hj]

/-- A datapath after a move of words, where nothing else has changed. -/
structure Moved (sources targets : List (Fin c.size)) (d d' : Datapath c δ) : Prop where
  reached : ∀ i ∈ targets, d'.values.get i = d.combined sources % c.wordSize
  others : ∀ i ∉ targets, d'.values.get i = d.values.get i
  flags : d'.flags = d.flags
  memory : d'.memory = d.memory
  ports : d'.ports = d.ports

theorem moved_endCycle (registers : ∀ i ∈ sources ++ targets,
      (c.wiring.slots.get i).kind = .register) (d : Datapath c δ) :
    Moved sources targets d (d.beginCycle.assertAll (moves sources targets)).endCycle := by
  obtain ⟨active, asserted, lines⟩ := assertAll_moves sources targets d
  have drive : ∀ i, (active.get i).drive = true ↔ i ∈ sources := fun i => by
    simpa [Lines.contains] using lines i .drive
  have latch : ∀ i, (active.get i).latch = true ↔ i ∈ targets := fun i => by
    simpa [Lines.contains] using lines i .latch
  have incr : ∀ i, (active.get i).incr = false := fun i => by
    simpa [Lines.contains] using lines i .incr
  have reset : ∀ i, (active.get i).reset = false := fun i => by
    simpa [Lines.contains] using lines i .reset
  have driving : ∀ i, i ∈ taking active (fun l => l.incr || l.drive) ↔ i ∈ sources := fun i => by
    simp [mem_taking, incr, drive]
  have latching : ∀ i, i ∈ taking active (·.latch) ↔ i ∈ targets := fun i => by
    simp [mem_taking, latch]
  have resetting : taking active (·.reset) = [] := by
    simp [taking, reset]
  have drove := foldl_drivePhase_registers
    (taking active fun l => l.incr || l.drive) (d := { d.beginCycle with active })
    (fun i hi => registers i (List.mem_append_left _ ((driving i).mp hi)))
    (fun i hi => (drive i).mpr ((driving i).mp hi)) (fun i _ => incr i)
  have latched := fun (d : Datapath c δ) (hactive : d.active = active) =>
    foldl_latchPhase_registers (taking active (·.latch)) (d := d)
      (fun i hi => registers i (List.mem_append_right _ ((latching i).mp hi)))
      (fun i hi => hactive ▸ (latch i).mpr ((latching i).mp hi))
  have word : (taking active fun l => l.incr || l.drive).foldl
      (fun word i => word ||| d.values.get i) 0 = d.combined sources :=
    combined_eq_of_mem_iff driving d
  rw [asserted, endCycle_eq, drove, latched _ rfl, resetting]
  refine ⟨fun i hi => ?_, fun i hi => ?_, rfl, rfl, rfl⟩
  · rw [← word]
    exact get_foldl_set_of_mem ((latching i).mpr hi) _ _
  · exact get_foldl_set_of_not_mem (fun h => hi ((latching i).mp h)) _ _

omit [Device δ] in
theorem Moved.valueAt_eq {d d' : Datapath c δ} (h : Moved sources targets d d')
    {place : Place c.size} (apart : ∀ i ∈ place.slots, i ∉ targets) :
    d'.valueAt place = d.valueAt place := by
  have kept : ∀ i ∈ place.slots, d'.values.get i = d.values.get i :=
    fun i hi => h.others i (apart i hi)
  cases place with
  | single slot => exact kept slot (List.mem_singleton_self slot)
  | double low high =>
    have lowKept := kept low List.mem_cons_self
    have highKept := kept high (List.mem_cons_of_mem low (List.mem_singleton_self high))
    change d'.values.get low + d'.values.get high * c.wordSize =
      d.values.get low + d.values.get high * c.wordSize
    rw [lowKept, highKept]

theorem exists_moved {components : List Component}
    (hw : Wiring.ofComponents components = .ok c.wiring) {source target : String}
    {origin destination : Place c.size} (hsource : c.wiring.place? source = some origin)
    (htarget : c.wiring.place? target = some destination)
    (registers : ∀ i ∈ origin.slots ++ destination.slots,
      (c.wiring.slots.get i).kind = .register)
    (drive : ∀ i ∈ origin.slots, (c.wiring.slots.get i).lines.drive = true)
    (latch : ∀ i ∈ destination.slots, (c.wiring.slots.get i).lines.latch = true)
    (d : Datapath c δ) :
    ∃ d', d.cycleLines [(source, "out"), (target, "in")] = .ok d' ∧
      Moved origin.slots destination.slots d d' := by
  have driveTargets : origin.targets .drive = origin.slots :=
    origin.targets_of_ne_incr (by decide)
  have latchTargets : destination.targets .latch = destination.slots :=
    destination.targets_of_ne_incr (by decide)
  have out := Sequencer.resolveAction_line hsource
    (Place.supports_iff.mpr (driveTargets ▸ drive))
  have into := Sequencer.resolveAction_line htarget
    (Place.supports_iff.mpr (latchTargets ▸ latch))
  rw [driveTargets] at out
  rw [latchTargets] at into
  have resolved : Sequencer.resolveStep c.wiring [.line source .drive, .line target .latch] =
      .ok (moves origin.slots destination.slots) :=
    Sequencer.resolveStep_ok_iff.mpr ⟨_, .cons out (.cons into .nil), by simp [moves]⟩
  exact ⟨_, cycleLines_written hw (by simp [NamedAction.literalBelow]) resolved d,
    moved_endCycle registers d⟩

end Phases

theorem add_mul_inj {wordSize low high low' high' : Nat} (hlow : low < wordSize)
    (hlow' : low' < wordSize) :
    low + high * wordSize = low' + high' * wordSize ↔ low = low' ∧ high = high' := by
  constructor
  · intro h
    have remainder := congrArg (· % wordSize) h
    simp only [Nat.add_mul_mod_self_right, Nat.mod_eq_of_lt hlow, Nat.mod_eq_of_lt hlow']
      at remainder
    have quotient := congrArg (· / wordSize) h
    simp only [Nat.add_mul_div_right _ _ (Nat.zero_lt_of_lt hlow), Nat.div_eq_of_lt hlow,
      Nat.div_eq_of_lt hlow', Nat.zero_add] at quotient
    exact ⟨remainder, quotient⟩
  · rintro ⟨rfl, rfl⟩
    rfl

section Doubles

theorem valueOf_of_doubleAt {component : Component} {low high : Fin c.size}
    (h : c.wiring.DoubleAt component low high) (d : Datapath c δ) :
    d.valueOf component.name = .ok (d.valueAt (.double low high)) := by
  unfold valueOf
  rw [h.place]

variable [Device δ] {components : List Component}
  (hw : Wiring.ofComponents components = .ok c.wiring)
include hw

section Slots

variable {source target : Component} {low high low' high' : Fin c.size}
  (at_source : c.wiring.DoubleAt source low high) (at_target : c.wiring.DoubleAt target low' high')
  (drive : source.lines.drive = true) (latch : target.lines.latch = true)
include at_source at_target drive latch

theorem exists_moved_of_doubleAt {outOf into : String} {origin destination : Place c.size}
    (houtOf : c.wiring.place? outOf = some origin) (hinto : c.wiring.place? into = some destination)
    (within : origin.slots ⊆ [low, high]) (within' : destination.slots ⊆ [low', high'])
    (d : Datapath c δ) : ∃ d', d.cycleLines [(outOf, "out"), (into, "in")] = .ok d' ∧
      Moved origin.slots destination.slots d d' := by
  refine exists_moved hw houtOf hinto (fun i hi => ?_)
    (fun i hi => (at_source.register i (within hi)).2 ▸ drive)
    (fun i hi => (at_target.register i (within' hi)).2 ▸ latch) d
  rcases List.mem_append.mp hi with hi | hi
  · exact (at_source.register i (within hi)).1
  · exact (at_target.register i (within' hi)).1

variable (apart : [low, high, low', high'].Nodup)
include apart

theorem exists_merged (d : Datapath c δ) :
    ∃ d', d.cycleLines [(source.name, "out"), (target.name, "in")] = .ok d' ∧
      d'.valueAt (.double low high) = d.valueAt (.double low high) ∧
      ∀ i ∈ [low', high'], d'.values.get i =
        (d.values.get low ||| d.values.get high) % c.wordSize := by
  obtain ⟨d', hcycle, moved⟩ := exists_moved_of_doubleAt hw at_source at_target drive latch
    at_source.place at_target.place (List.Subset.refl _) (List.Subset.refl _) d
  refine ⟨d', hcycle, moved.valueAt_eq ?_, fun i hi => ?_⟩
  · simp only [Place.slots, List.nodup_cons, List.mem_cons, List.not_mem_nil] at apart ⊢
    grind
  · rw [moved.reached i hi, Place.slots, combined_double]

theorem exists_copied {d : Datapath c δ} (words : ∀ i, d.values.get i < c.wordSize) :
    ∃ d', d.cyclesLines [[(source.lowName, "out"), (target.lowName, "in")],
        [(source.highName, "out"), (target.highName, "in")]] = .ok d' ∧
      d'.valueAt (.double low high) = d.valueAt (.double low high) ∧
      d'.valueAt (.double low' high') = d.valueAt (.double low high) := by
  obtain ⟨first, hfirst, movedLow⟩ := exists_moved_of_doubleAt hw at_source at_target drive latch
    at_source.lowPlace at_target.lowPlace (by simp [Place.slots]) (by simp [Place.slots]) d
  obtain ⟨second, hsecond, movedHigh⟩ := exists_moved_of_doubleAt hw at_source at_target drive latch
    at_source.highPlace at_target.highPlace (by simp [Place.slots]) (by simp [Place.slots]) first
  simp only [List.nodup_cons, List.mem_cons, List.not_mem_nil, or_false, not_or] at apart
  obtain ⟨⟨-, hlow, hlow'⟩, ⟨hhigh, hhigh'⟩, hne, -⟩ := apart
  have lowWord : second.values.get low' = d.values.get low :=
    calc
      second.values.get low' = first.values.get low' :=
        movedHigh.others low' (by simpa [Place.slots] using hne)
      _ = d.combined [low] % c.wordSize :=
        movedLow.reached low' (List.mem_singleton_self low')
      _ = d.values.get low := by rw [combined_single, Nat.mod_eq_of_lt (words low)]
  have highWord : second.values.get high' = d.values.get high :=
    calc
      second.values.get high' = first.combined [high] % c.wordSize :=
        movedHigh.reached high' (List.mem_singleton_self high')
      _ = d.values.get high % c.wordSize := by
        rw [combined_single, movedLow.others high (by simpa [Place.slots] using hhigh)]
      _ = d.values.get high := Nat.mod_eq_of_lt (words high)
  refine ⟨second, ?_, ?_, ?_⟩
  · exact bind_eq_ok_iff.mpr ⟨first, hfirst, bind_eq_ok_iff.mpr ⟨second, hsecond, rfl⟩⟩
  · exact (movedHigh.valueAt_eq (by simp [Place.slots]; grind)).trans
      (movedLow.valueAt_eq (by simp [Place.slots]; grind))
  · change second.values.get low' + second.values.get high' * c.wordSize = _
    rw [lowWord, highWord]
    rfl

end Slots

/-- A cycle that drives the bus from one register of two words and lets another one take it over
leaves the OR of both halves in both halves, which is a copy only if the halves are equal. Two
cycles that move the halves by their own names make a copy. -/
theorem copies_exact {source target : Component} (hsource : source ∈ components)
    (htarget : target ∈ components) (doubleSource : source.double = true)
    (doubleTarget : target.double = true) (distinct : source.name ≠ target.name)
    (drive : source.lines.drive = true) (latch : target.lines.latch = true) {d : Datapath c δ}
    (words : ∀ i, d.values.get i < c.wordSize) :
    ∃ low high whole halves, low < c.wordSize ∧ high < c.wordSize ∧
      d.valueOf source.name = .ok (low + high * c.wordSize) ∧
      d.cycleLines [(source.name, "out"), (target.name, "in")] = .ok whole ∧
      whole.valueOf source.name = d.valueOf source.name ∧
      whole.valueOf target.name =
        .ok ((low ||| high) % c.wordSize + (low ||| high) % c.wordSize * c.wordSize) ∧
      (whole.valueOf target.name = d.valueOf source.name ↔ low = high) ∧
      d.cyclesLines [[(source.lowName, "out"), (target.lowName, "in")],
        [(source.highName, "out"), (target.highName, "in")]] = .ok halves ∧
      halves.valueOf source.name = d.valueOf source.name ∧
      halves.valueOf target.name = d.valueOf source.name := by
  obtain ⟨low, high, low', high', at_source, at_target, apart⟩ := Wiring.exists_doubleAt_pair hw
    hsource htarget doubleSource doubleTarget distinct
  obtain ⟨whole, hwhole, wholeSource, word⟩ :=
    exists_merged hw at_source at_target drive latch apart d
  obtain ⟨halves, hhalves, halvesSource, copied⟩ :=
    exists_copied hw at_source at_target drive latch apart words
  have merged : whole.valueAt (.double low' high') =
      (d.values.get low ||| d.values.get high) % c.wordSize +
        (d.values.get low ||| d.values.get high) % c.wordSize * c.wordSize := by
    change whole.values.get low' + whole.values.get high' * c.wordSize = _
    rw [word low' List.mem_cons_self, word high' (by simp)]
  simp only [valueOf_of_doubleAt at_source, valueOf_of_doubleAt at_target]
  refine ⟨d.values.get low, d.values.get high, whole, halves, words low, words high, rfl, hwhole,
    congrArg Except.ok wholeSource, congrArg Except.ok merged, ?_, hhalves,
    congrArg Except.ok halvesSource, congrArg Except.ok copied⟩
  rw [Except.ok.injEq, merged]
  refine (add_mul_inj (Nat.mod_lt _ c.wordSize_pos) (words low)).trans ⟨fun h => ?_, fun h => ?_⟩
  · exact h.1.symm.trans h.2
  · rw [← h, Nat.or_self, Nat.mod_eq_of_lt (words low)]
    exact ⟨rfl, h⟩

end Doubles

def unequalWords : Datapath doubleCircuit QueueDevice :=
  { initial with values := #v[1, 2, 0, 0, 0, 0] }

theorem copies_exact_unequalWords : ∃ whole halves,
    unequalWords.cycleLines [("pc", "out"), ("address", "in")] = .ok whole ∧
    whole.valueOf "address" = .ok 771 ∧
    unequalWords.cyclesLines [[("pc_l", "out"), ("address_l", "in")],
      [("pc_h", "out"), ("address_h", "in")]] = .ok halves ∧
    halves.valueOf "address" = .ok 513 := by
  have start : unequalWords.valueOf "pc" = .ok 513 := rfl
  have source : { name := "pc", double := true } ∈ doubleComponents := List.mem_cons_self
  have target : { name := "address", lines := { latch := true, drive := true }, double := true } ∈
      doubleComponents := List.mem_cons_of_mem _ List.mem_cons_self
  obtain ⟨low, high, whole, halves, hlow, hhigh, hvalue, hwhole, -, merged, -, hhalves, -,
    copied⟩ :=
    copies_exact (c := doubleCircuit) ofComponents_double source target rfl rfl (by decide) rfl rfl
      (d := unequalWords) (by decide)
  have words := Except.ok.inj (start.symm.trans hvalue)
  change low < 256 at hlow
  change 513 = low + high * 256 at words
  obtain rfl : low = 1 := by omega
  obtain rfl : high = 2 := by omega
  exact ⟨whole, halves, hwhole, merged, hhalves, copied.trans start⟩

theorem copy_merges_words : Wiring.ofComponents doubleComponents = .ok doubleWiring ∧
    (∀ i, unequalWords.values.get i < doubleCircuit.wordSize) ∧
    unequalWords.valueOf "pc" = .ok 513 ∧
    ∃ d', unequalWords.cycleLines [("pc", "out"), ("address", "in")] = .ok d' ∧
      d'.valueOf "address" = .ok 771 := by
  refine ⟨ofComponents_double, by decide, rfl, ?_⟩
  have source : doubleCircuit.wiring.place? "pc" = some (@Place.double 6 0 1) := rfl
  have target : doubleCircuit.wiring.place? "address" = some (@Place.double 6 2 3) := rfl
  obtain ⟨d', hcycle, moved⟩ := exists_moved (c := doubleCircuit) ofComponents_double source target
    (by decide) (by decide) (by decide) unequalWords
  have lowWord : d'.values.get (2 : Fin 6) = 3 := moved.reached (2 : Fin 6) List.mem_cons_self
  have highWord : d'.values.get (3 : Fin 6) = 3 :=
    moved.reached (3 : Fin 6) (List.mem_cons_of_mem _ List.mem_cons_self)
  refine ⟨d', hcycle, ?_⟩
  change Except.ok (d'.values.get (2 : Fin 6) + d'.values.get (3 : Fin 6) * 256) = _
  rw [lowWord, highWord]

end Datapath

end BusMachine
