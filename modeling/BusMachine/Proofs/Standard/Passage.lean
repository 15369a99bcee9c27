import BusMachine.Proofs.Sequencer.Segment
import BusMachine.Proofs.Standard.Progress

/-!
Segments of the standard machine: an instruction changes the state by its meaning and loads the next
one, and an opcode without a meaning changes nothing, however long one waits.
-/

namespace BusMachine.Standard

open Datapath

def State.meaning? {size : Nat} {δ : Type} (s : State size δ) : Option Meaning :=
  meaningOf? s.instruction

/-- The state in which the next instruction begins. -/
def State.next {size : Nat} {δ : Type} [Device δ] (wordSize : Nat) (s : State size δ) :
    State size δ :=
  match s.meaning? with
  | some meaning => (meaning.perform wordSize s).fetch
  | none => s

section Next

variable {size : Nat} {δ : Type} [Device δ] {wordSize : Nat} {s : State size δ}

theorem State.next_of_some {meaning : Meaning} (h : s.meaning? = some meaning) :
    s.next wordSize = (meaning.perform wordSize s).fetch := by
  unfold State.next
  rw [h]

theorem State.next_of_none (h : s.meaning? = none) : s.next wordSize = s := by
  unfold State.next
  rw [h]

end Next

variable {params : Parameters} {valid : params.Valid} {δ : Type} [Device δ]
  {d d' : Datapath (circuit params valid) δ}

omit [Device δ] in
theorem begins_iff : sequencer.Begins d ↔ (State.ofDatapath d).tick = 0 := by
  rw [← values_tick]
  rfl

theorem cycles_unknown (h : d.Sound) (hm : (State.ofDatapath d).meaning? = none) (count : Nat) :
    (sequencer.cycles count d).Sound ∧ State.ofDatapath (sequencer.cycles count d) =
      { State.ofDatapath d with
          tick := ((State.ofDatapath d).tick + count) % params.wordSize } := by
  refine ⟨sound_cycles h count, ?_⟩
  have tick_lt : (State.ofDatapath d).tick < params.wordSize := h.values_lt tickSlot
  induction count with
  | zero => rw [Nat.add_zero, Nat.mod_eq_of_lt tick_lt, Sequencer.cycles_zero]
  | succ count ih =>
    have still : meaningOf? (State.ofDatapath (sequencer.cycles count d)).instruction = none := by
      rw [ih]
      exact hm
    rw [Sequencer.cycles_succ, (cycle_unknown (sound_cycles h count) still).2, ih]
    show { State.ofDatapath d with
      tick := (((State.ofDatapath d).tick + count) % params.wordSize + 1) % params.wordSize } = _
    rw [Nat.mod_add_mod, Nat.add_assoc]

theorem returns_of_meaning (hsize : 46 ≤ params.wordSize) (h : d.Sound)
    (hbegins : sequencer.Begins d) {meaning : Meaning}
    (hm : (State.ofDatapath d).meaning? = some meaning) :
    sequencer.Returns d (meaning.steps d.flags).length := by
  obtain ⟨i, -, hopcode, carried⟩ := exists_of_meaningOf? hm
  have ⟨inner, last⟩ := cycles_steps carried hsize h (begins_iff.mp hbegins) hopcode.symm
  refine ⟨?_, ?_, fun k hpos hlt hzero => ?_⟩
  · rw [length_steps]
    exact Nat.succ_pos _
  · rw [begins_iff, last]
    rfl
  · rw [begins_iff, (inner k hlt).1] at hzero
    exact absurd hzero (Nat.ne_of_gt hpos)

theorem ofDatapath_returns (hsize : 46 ≤ params.wordSize) (h : d.beginCycle.Sound)
    (hbegins : sequencer.Begins d) {count : Nat} (hcount : sequencer.Returns d count) :
    State.ofDatapath (sequencer.cycles count d) = (State.ofDatapath d).next params.wordSize := by
  replace hcount := Sequencer.returns_beginCycle.mpr hcount
  rw [← Sequencer.ofDatapath_cycles_beginCycle]
  replace hbegins : sequencer.Begins d.beginCycle := hbegins
  change _ = (State.ofDatapath d.beginCycle).next params.wordSize
  generalize d.beginCycle = d at *
  have tick := begins_iff.mp hbegins
  cases hm : (State.ofDatapath d).meaning? with
  | some meaning =>
    obtain ⟨i, -, hopcode, carried⟩ := exists_of_meaningOf? hm
    have ⟨_, last⟩ := cycles_steps carried hsize h tick hopcode.symm
    have steps := returns_of_meaning hsize h hbegins hm
    have same : count = (meaning.steps d.flags).length := by
      obtain hlt | heq | hlt := Nat.lt_trichotomy count (meaning.steps d.flags).length
      · exact absurd hcount.begins (steps.inner count hcount.pos hlt)
      · exact heq
      · exact absurd steps.begins (hcount.inner _ steps.pos hlt)
    rw [same, last, State.next_of_some hm]
  | none =>
    have waited := (cycles_unknown h hm count).2
    have begun := begins_iff.mp hcount.begins
    rw [waited] at begun
    replace begun : ((State.ofDatapath d).tick + count) % params.wordSize = 0 := begun
    rw [waited, State.next_of_none hm, begun, ← tick]

variable {passages : List (Passage (circuit params valid) δ)}
  {p : Passage (circuit params valid) δ}

theorem sound_segment (h : d.beginCycle.Sound) (hsegment : sequencer.Segment d passages d') :
    d'.beginCycle.Sound := by
  induction hsegment with
  | nil _ => exact h
  | @cons d _ _ _ count hreturns _ ih =>
    obtain ⟨count, rfl⟩ := Nat.exists_eq_succ_of_ne_zero (Nat.ne_of_gt hreturns.pos)
    have sound := (sound_cycles h (count + 1)).beginCycle
    rw [Sequencer.cycles_succ, Sequencer.cycle_cycles_beginCycle, ← Sequencer.cycles_succ] at sound
    exact ih sound

theorem next_of_concat (hsize : 46 ≤ params.wordSize) (h : d.beginCycle.Sound)
    (hsegment : sequencer.Segment d (passages ++ [p]) d') :
    sequencer.Segment d passages p.before ∧ d' = p.after ∧
      State.ofDatapath p.after = (State.ofDatapath p.before).next params.wordSize := by
  obtain ⟨hfirst, hlast, count, hreturns, hafter⟩ := hsegment.of_concat
  have reached := ofDatapath_returns hsize (sound_segment h hfirst) hfirst.ends hreturns
  rw [← hafter] at reached
  exact ⟨hfirst, hlast, reached⟩

theorem next_of_mem (hsize : 46 ≤ params.wordSize) (h : d.beginCycle.Sound)
    (hsegment : sequencer.Segment d passages d') (hp : p ∈ passages) :
    State.ofDatapath p.after = (State.ofDatapath p.before).next params.wordSize := by
  obtain ⟨before, after, rfl⟩ := List.append_of_mem hp
  rw [List.append_cons] at hsegment
  obtain ⟨_, hprefix, -⟩ := hsegment.of_append
  exact (next_of_concat hsize h hprefix).2.2

theorem exists_segment_iterate (hsize : 46 ≤ params.wordSize) (h : d.beginCycle.Sound)
    (hbegins : sequencer.Begins d) {count : Nat}
    (hmeanings : ∀ k < count,
      (((State.next params.wordSize)^[k] (State.ofDatapath d)).meaning?).isSome = true) :
    ∃ passages d', sequencer.Segment d passages d' ∧
      passages.map (fun p => State.ofDatapath p.before) =
        (List.range count).map (fun k => (State.next params.wordSize)^[k] (State.ofDatapath d)) ∧
      State.ofDatapath d' = (State.next params.wordSize)^[count] (State.ofDatapath d) := by
  induction count with
  | zero => exact ⟨[], d, .nil hbegins, rfl, rfl⟩
  | succ count ih =>
    obtain ⟨passages, d', hsegment, hstates, hstate⟩ :=
      ih fun k hk => hmeanings k (Nat.lt_succ_of_lt hk)
    have known := hmeanings count (Nat.lt_succ_self count)
    rw [← hstate] at known
    obtain ⟨meaning, hmeaning⟩ := Option.isSome_iff_exists.mp known
    have sound := sound_segment h hsegment
    have returns : sequencer.Returns d' (meaning.steps d'.beginCycle.flags).length :=
      Sequencer.returns_beginCycle.mp (returns_of_meaning hsize sound hsegment.ends hmeaning)
    refine ⟨_, _, hsegment.concat returns, ?_, ?_⟩
    · rw [List.map_append, List.range_succ, List.map_append, hstates, List.map_singleton,
        List.map_singleton, hstate]
    · rw [ofDatapath_returns hsize sound hsegment.ends returns, hstate,
        Function.iterate_succ_apply']

end BusMachine.Standard
