import BusMachine.Clock
import Mathlib.Logic.Function.Iterate

/-!
The ticks that a clock performs when time is fed to it: how many they are, where they lead, and that
a halt is the last of them.
-/

namespace BusMachine.Clock

variable {τ : Type} {σ : Type u}

/-- What `count` ticks from `s` on leave of a clock and a state, where a halt was the last tick and
has stopped the clock. -/
structure Performed (tick : σ → Bool × σ) (s : σ) (count : Nat) (k' : Clock τ) (s' : σ) : Prop where
  state_eq : s' = (fun s => (tick s).2)^[count] s
  quiet : ∀ j, j + 1 < count → (tick ((fun s => (tick s).2)^[j] s)).1 = false
  stopped : ∀ j < count, (tick ((fun s => (tick s).2)^[j] s)).1 = true → k'.active = false

variable {tick : σ → Bool × σ}

theorem Performed.none (s : σ) (k : Clock τ) : Performed tick s 0 k s :=
  ⟨rfl, by omega, by omega⟩

theorem Performed.cons {s s' : σ} {count : Nat} {k' : Clock τ} (hquiet : (tick s).1 = false)
    (h : Performed tick (tick s).2 count k' s') : Performed tick s (count + 1) k' s' := by
  refine ⟨h.state_eq, fun j hj => ?_, fun j hj => ?_⟩
  · cases j with
    | zero => exact hquiet
    | succ j => exact h.quiet j (by omega)
  · cases j with
    | zero =>
      intro hhalt
      rw [Function.iterate_zero, id, hquiet] at hhalt
      cases hhalt
    | succ j => exact h.stopped j (by omega)

theorem Performed.last {s : σ} {k' : Clock τ} (hstopped : k'.active = false) :
    Performed tick s 1 k' (tick s).2 :=
  ⟨rfl, by omega, fun _ _ _ => hstopped⟩

variable [Duration τ]

def counted (tick : σ → Bool × σ) : σ × Nat → Bool × σ × Nat
  | (s, calls) => ((tick s).1, (tick s).2, calls + 1)

def callbacks (k : Clock τ) (dt : τ) (tick : σ → Bool × σ) (s : σ) : Nat :=
  (k.advance dt (counted tick) (s, 0)).2.2.2

theorem catchUp_of_not_due {k : Clock τ} (h : k.due = false) (fuel : Nat) (s : σ) :
    catchUp tick fuel k s = (k, s) := by
  cases fuel with
  | zero => rfl
  | succ fuel => simp [catchUp, h]

theorem due_of_inactive {k : Clock τ} (h : k.active = false) : k.due = false := by
  simp [due, h]

variable (tick) in
theorem catchUp_performed (fuel : Nat) (k : Clock τ) (s : σ) (calls : Nat) :
    ∃ count,
      catchUp (counted tick) fuel k (s, calls) =
        ((catchUp tick fuel k s).1, (catchUp tick fuel k s).2, calls + count) ∧
      Performed tick s count (catchUp tick fuel k s).1 (catchUp tick fuel k s).2 := by
  induction fuel generalizing k s calls with
  | zero => exact ⟨0, rfl, .none s k⟩
  | succ fuel ih =>
    cases hdue : k.due with
    | false =>
      rw [catchUp_of_not_due hdue, catchUp_of_not_due hdue]
      exact ⟨0, rfl, .none s k⟩
    | true =>
      simp only [catchUp, hdue, if_true, counted]
      cases hhalt : (tick s).1 with
      | true =>
        -- the clock stands still, so this was the last tick
        have still : due ({ k with countdown := k.countdown + k.period, active := !true } :
            Clock τ) = false := due_of_inactive rfl
        rw [catchUp_of_not_due still, catchUp_of_not_due still]
        exact ⟨1, rfl, .last rfl⟩
      | false =>
        have ⟨count, hcounted, hperformed⟩ := ih
          { k with countdown := k.countdown + k.period, active := !false } (tick s).2 (calls + 1)
        refine ⟨count + 1, ?_, hperformed.cons hhalt⟩
        rw [hcounted, Nat.add_assoc, Nat.add_comm 1]

theorem advance_of_inactive {k : Clock τ} (h : k.active = false) (dt : τ) (s : σ) :
    k.advance dt tick s = (false, k, s) := by
  simp [advance, h]

def late (k : Clock τ) (dt : τ) : Clock τ :=
  { k with countdown := (if Duration.le k.countdown k.period then k.countdown else k.period) - dt }

theorem advance_of_active {k : Clock τ} (h : k.active = true) (dt : τ) (s : σ) :
    k.advance dt tick s = ((k.late dt).due,
      catchUp tick (Duration.enough k.period (k.late dt).countdown) (k.late dt) s) := by
  unfold advance
  rw [if_pos h]
  rfl

variable (tick) in
theorem advance_performed (k : Clock τ) (dt : τ) (s : σ) :
    Performed tick s (k.callbacks dt tick s) (k.advance dt tick s).2.1
      (k.advance dt tick s).2.2 := by
  cases hactive : k.active with
  | false =>
    unfold callbacks
    rw [advance_of_inactive hactive, advance_of_inactive hactive]
    exact .none s k
  | true =>
    have ⟨count, hcounted, hperformed⟩ := catchUp_performed tick
      (Duration.enough k.period (k.late dt).countdown) (k.late dt) s 0
    unfold callbacks
    rw [advance_of_active hactive, advance_of_active hactive, hcounted, Nat.zero_add]
    exact hperformed

end BusMachine.Clock
