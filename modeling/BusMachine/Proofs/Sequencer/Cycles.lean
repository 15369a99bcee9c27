import BusMachine.Sequencer
import Mathlib.Logic.Function.Iterate

/-!
Cycles of a sequencer, one after the other.
-/

namespace BusMachine

def Sequencer.cycles {c : Circuit} {δ : Type} [Device δ] (q : Sequencer c.wiring) (count : Nat)
    (d : Datapath c δ) : Datapath c δ :=
  (fun d => (q.cycle d).2)^[count] d

theorem Sequencer.cycles_zero {c : Circuit} {δ : Type} [Device δ] (q : Sequencer c.wiring)
    (d : Datapath c δ) : q.cycles 0 d = d :=
  rfl

theorem Sequencer.cycles_succ {c : Circuit} {δ : Type} [Device δ] (q : Sequencer c.wiring)
    (count : Nat) (d : Datapath c δ) :
    q.cycles (count + 1) d = (q.cycle (q.cycles count d)).2 :=
  Function.iterate_succ_apply' _ _ _

theorem Sequencer.cycle_cycles_beginCycle {c : Circuit} {δ : Type} [Device δ]
    (q : Sequencer c.wiring) (count : Nat) (d : Datapath c δ) :
    q.cycle (q.cycles count d.beginCycle) = q.cycle (q.cycles count d) := by
  cases count with
  | zero => rfl
  | succ count =>
    unfold cycles
    rw [Function.iterate_succ_apply, Function.iterate_succ_apply]
    rfl

theorem Sequencer.cycles_add {c : Circuit} {δ : Type} [Device δ] (q : Sequencer c.wiring)
    (count more : Nat) (d : Datapath c δ) :
    q.cycles (count + more) d = q.cycles more (q.cycles count d) := by
  unfold cycles
  rw [Nat.add_comm, Function.iterate_add_apply]

def Sequencer.haltsAt {c : Circuit} {δ : Type} [Device δ] (q : Sequencer c.wiring)
    (d : Datapath c δ) (count : Nat) : Bool :=
  (q.cycle (q.cycles count d)).1.halted

theorem Sequencer.haltsAt_cycles {c : Circuit} {δ : Type} [Device δ] (q : Sequencer c.wiring)
    (d : Datapath c δ) (count more : Nat) :
    q.haltsAt (q.cycles count d) more = q.haltsAt d (count + more) := by
  unfold haltsAt
  rw [cycles_add]

end BusMachine
