import BusMachine.Proofs.Clock.Callbacks
import Mathlib.Data.Rat.Floor
import Mathlib.Tactic.Linarith
import Mathlib.Tactic.NormNum
import Mathlib.Tactic.Ring

/-!
Conservation of time, in exact arithmetic. Whatever a clock is asked to do, the time that is left to
its next tick is its period and one more for each tick, less all the time that it was fed while it
was active. As long as no tick halts, the number of ticks depends on this time alone.
-/

namespace BusMachine

instance : Duration ℚ where
  zero := 0
  le a b := decide (a ≤ b)
  lt a b := decide (a < b)
  enough period debt := ⌈-debt / period⌉₊

namespace Clock

variable {σ : Type u} {tick : σ → Bool × σ}

section Loop

variable {τ : Type} [Duration τ]

def ticked (k : Clock τ) (halted : Bool) : Clock τ :=
  { k with countdown := k.countdown + k.period, active := !halted }

/-- A whole run of the loop that ticks for as long as the clock is due. -/
inductive CatchesUp (tick : σ → Bool × σ) : Clock τ → σ → Clock τ → σ → Prop
  | rest {k : Clock τ} {s : σ} (h : k.due = false) : CatchesUp tick k s k s
  | again {k k' : Clock τ} {s s' : σ} (h : k.due = true)
    (more : CatchesUp tick (k.ticked (tick s).1) (tick s).2 k' s') : CatchesUp tick k s k' s'

theorem CatchesUp.not_due {k k' : Clock τ} {s s' : σ} (h : CatchesUp tick k s k' s') :
    k'.due = false := by
  induction h with
  | rest h => exact h
  | again _ _ ih => exact ih

end Loop

theorem due_eq_true_iff {k : Clock ℚ} : k.due = true ↔ k.active = true ∧ k.countdown < 0 := by
  rw [due, Bool.and_eq_true]
  exact Iff.and Iff.rfl decide_eq_true_iff

theorem countdown_ticked (k : Clock ℚ) (halted : Bool) :
    (k.ticked halted).countdown = k.countdown + k.period :=
  rfl

variable (tick) in
theorem catchesUp_catchUp (fuel : Nat) {k : Clock ℚ} (enough : 0 ≤ k.countdown + fuel * k.period)
    (s : σ) : CatchesUp tick k s (catchUp tick fuel k s).1 (catchUp tick fuel k s).2 := by
  induction fuel generalizing k s with
  | zero =>
    have ahead : k.due = false := by
      rw [← Bool.not_eq_true, due_eq_true_iff]
      intro ⟨_, late⟩
      rw [Nat.cast_zero, zero_mul, add_zero] at enough
      exact absurd late (not_lt.mpr enough)
    exact .rest ahead
  | succ fuel ih =>
    cases hdue : k.due with
    | false =>
      rw [catchUp_of_not_due hdue]
      exact .rest hdue
    | true =>
      rw [catchUp, if_pos hdue]
      refine .again hdue (ih (k := k.ticked (tick s).1) ?_ (tick s).2)
      rw [countdown_ticked]
      push_cast at enough
      calc
        0 ≤ k.countdown + (fuel + 1) * k.period := enough
        _ = k.countdown + k.period + fuel * k.period := by ring

theorem enough_spec {period : ℚ} (hperiod : 0 < period) (debt : ℚ) :
    0 ≤ debt + (Duration.enough period debt : Nat) * period := by
  have reached : -debt / period ≤ (⌈-debt / period⌉₊ : ℚ) := Nat.le_ceil _
  rw [div_le_iff₀ hperiod] at reached
  have made : (Duration.enough period debt : Nat) = ⌈-debt / period⌉₊ := rfl
  rw [made]
  linarith

def haltsAt (tick : σ → Bool × σ) (s : σ) (j : Nat) : Bool :=
  (tick ((fun s => (tick s).2)^[j] s)).1

theorem haltsAt_iterate (tick : σ → Bool × σ) (s : σ) (n j : Nat) :
    haltsAt tick ((fun s => (tick s).2)^[n] s) j = haltsAt tick s (n + j) := by
  rw [haltsAt, haltsAt, ← Function.iterate_add_apply, Nat.add_comm]

/-- What the loop does that performs `count` ticks from `s` on. -/
structure CaughtUp (tick : σ → Bool × σ) (count : Nat) (k : Clock ℚ) (s : σ) (k' : Clock ℚ)
    (s' : σ) : Prop where
  state_eq : s' = (fun s => (tick s).2)^[count] s
  period_eq : k'.period = k.period
  countdown_eq : k'.countdown = k.countdown + count * k.period
  /-- The last tick was overdue. -/
  late : count = 0 ∨ k'.countdown < k.period
  active : (∀ j < count, haltsAt tick s j = false) → k'.active = k.active

theorem CaughtUp.none (k : Clock ℚ) (s : σ) : CaughtUp tick 0 k s k s where
  state_eq := rfl
  period_eq := rfl
  countdown_eq := by rw [Nat.cast_zero, zero_mul, add_zero]
  late := .inl rfl
  active _ := rfl

theorem CaughtUp.again {k k' : Clock ℚ} {s s' : σ} {count : Nat} (hdue : k.due = true)
    (h : CaughtUp tick count (k.ticked (tick s).1) (tick s).2 k' s') :
    CaughtUp tick (count + 1) k s k' s' where
  state_eq := h.state_eq
  period_eq := h.period_eq
  countdown_eq := by
    have rest : k'.countdown = k.countdown + k.period + count * k.period := h.countdown_eq
    rw [rest]
    push_cast
    ring
  late := by
    refine .inr ?_
    obtain ⟨-, negative⟩ := due_eq_true_iff.mp hdue
    rcases h.late with none | late
    · have rest := h.countdown_eq
      rw [none, Nat.cast_zero, zero_mul, add_zero, countdown_ticked] at rest
      linarith
    · exact late
  active quiet := by
    have running := (due_eq_true_iff.mp hdue).1
    have first : (tick s).1 = false := quiet 0 (Nat.succ_pos count)
    have rest := h.active fun j hj => quiet (j + 1) (Nat.succ_lt_succ hj)
    rw [rest, ticked, first, running]
    rfl

theorem CaughtUp.ahead {k k' : Clock ℚ} {s s' : σ} {count : Nat}
    (h : CaughtUp tick count k s k' s') (active : k.active = true) (rested : k'.due = false)
    (quiet : ∀ j < count, haltsAt tick s j = false) : 0 ≤ k'.countdown := by
  by_contra negative
  have due := due_eq_true_iff.mpr ⟨(h.active quiet).trans active, not_le.mp negative⟩
  rw [rested] at due
  cases due

theorem CatchesUp.exists_caughtUp {k k' : Clock ℚ} {x x' : σ × Nat}
    (h : CatchesUp (counted tick) k x k' x') :
    ∃ count, x'.2 = x.2 + count ∧ CaughtUp tick count k x.1 k' x'.1 := by
  induction h with
  | rest => exact ⟨0, rfl, .none _ _⟩
  | @again k k' x x' hdue _ ih =>
    obtain ⟨count, hcount, caught⟩ := ih
    refine ⟨count + 1, ?_, .again hdue caught⟩
    rw [hcount, counted, Nat.add_assoc, Nat.add_comm 1]

inductive Call where
  | start
  | stop
  | advance (dt : ℚ)
deriving DecidableEq, Repr

/-- A clock with the state that its ticks change and an account of what it was asked to do. -/
structure Session (σ : Type u) where
  clock : Clock ℚ
  state : σ
  ticks : Nat := 0
  fed : ℚ := 0

namespace Session

def perform (tick : σ → Bool × σ) (x : Session σ) : Call → Session σ
  | .start => { x with clock := x.clock.start }
  | .stop => { x with clock := x.clock.stop }
  | .advance dt =>
    let after := (x.clock.advance dt (counted tick) (x.state, x.ticks)).2
    { clock := after.1, state := after.2.1, ticks := after.2.2
      fed := if x.clock.active then x.fed + dt else x.fed }

def run (tick : σ → Bool × σ) (period : ℚ) (s : σ) (calls : List Call) : Session σ :=
  calls.foldl (perform tick) { clock := .new period, state := s }

/-- What is conserved by every call. -/
structure Conserves (tick : σ → Bool × σ) (period : ℚ) (s : σ) (x : Session σ) : Prop where
  period_eq : x.clock.period = period
  fed_nonneg : 0 ≤ x.fed
  balance : x.clock.countdown = period + x.ticks * period - x.fed
  /-- Every tick came after its time. -/
  overdue : x.ticks = 0 ∨ x.ticks * period < x.fed
  state_eq : x.state = (fun s => (tick s).2)^[x.ticks] s
  ahead : (∀ j < x.ticks, haltsAt tick s j = false) → 0 ≤ x.clock.countdown

variable {period : ℚ} {s : σ} {x : Session σ}

theorem Conserves.countdown_le (h : Conserves tick period s x) : x.clock.countdown ≤ period := by
  rw [h.balance]
  rcases h.overdue with none | overdue
  · rw [none, Nat.cast_zero, zero_mul, add_zero]
    exact sub_le_self period h.fed_nonneg
  · linarith

theorem conserves_new (hperiod : 0 < period) (s : σ) :
    Conserves tick period s { clock := .new period, state := s } where
  period_eq := rfl
  fed_nonneg := le_refl 0
  balance := by simp [Clock.new]
  overdue := .inl rfl
  state_eq := rfl
  ahead _ := hperiod.le

theorem catchesUp_advance (tick : σ → Bool × σ) (hperiod : 0 < x.clock.period)
    (active : x.clock.active = true) (dt : ℚ) :
    CatchesUp (counted tick) (x.clock.late dt) (x.state, x.ticks)
      (x.perform tick (.advance dt)).clock
      ((x.perform tick (.advance dt)).state, (x.perform tick (.advance dt)).ticks) := by
  have loop := catchesUp_catchUp (counted tick) _
    (enough_spec hperiod (x.clock.late dt).countdown) (x.state, x.ticks)
  simp only [perform, advance_of_active active]
  exact loop

theorem countdown_late {k : Clock ℚ} (h : k.countdown ≤ k.period) (dt : ℚ) :
    (k.late dt).countdown = k.countdown - dt := by
  have inside : Duration.le k.countdown k.period = true := decide_eq_true h
  rw [late, if_pos inside]

theorem Conserves.caughtUp {x' : Session σ} (h : Conserves tick period s x)
    {dt : ℚ} (hdt : 0 ≤ dt) (active : x.clock.active = true) {count : Nat}
    (hticks : x'.ticks = x.ticks + count) (hfed : x'.fed = x.fed + dt)
    (caught : CaughtUp tick count (x.clock.late dt) x.state x'.clock x'.state)
    (rested : x'.clock.due = false) : Conserves tick period s x' := by
  have balance : x'.clock.countdown = period + x'.ticks * period - x'.fed := by
    have inside : x.clock.countdown ≤ x.clock.period := h.period_eq ▸ h.countdown_le
    have fed : x'.clock.countdown = x.clock.countdown - dt + count * period := by
      rw [caught.countdown_eq, countdown_late inside]
      exact congrArg (x.clock.countdown - dt + count * ·) h.period_eq
    rw [fed, h.balance, hticks, hfed]
    push_cast
    ring
  refine ⟨caught.period_eq.trans h.period_eq, hfed ▸ add_nonneg h.fed_nonneg hdt, balance, ?_, ?_,
    fun quiet => ?_⟩
  · rcases caught.late with none | late
    · -- time only goes forward, so the ticks before are overdue all the more
      rw [hticks, hfed, none, Nat.add_zero]
      exact h.overdue.imp_right fun overdue => lt_add_of_lt_of_nonneg overdue hdt
    · have below : x'.clock.countdown < period := h.period_eq ▸ late
      right
      linarith
  · rw [caught.state_eq, h.state_eq, hticks, Nat.add_comm, Function.iterate_add_apply]
  · refine caught.ahead active rested fun j hj => ?_
    rw [h.state_eq, haltsAt_iterate]
    exact quiet (x.ticks + j) (hticks ▸ Nat.add_lt_add_left hj x.ticks)

theorem Conserves.perform (h : Conserves tick period s x) (hperiod : 0 < period) {call : Call}
    (forward : ∀ dt, call = .advance dt → 0 ≤ dt) :
    Conserves tick period s (x.perform tick call) := by
  cases call with
  | start => exact ⟨h.period_eq, h.fed_nonneg, h.balance, h.overdue, h.state_eq, h.ahead⟩
  | stop => exact ⟨h.period_eq, h.fed_nonneg, h.balance, h.overdue, h.state_eq, h.ahead⟩
  | advance dt =>
    cases active : x.clock.active with
    | false =>
      have still : x.perform tick (.advance dt) = x := by
        simp only [Session.perform, advance_of_inactive active, active, Bool.false_eq_true,
          if_false]
      rw [still]
      exact h
    | true =>
      have loop := catchesUp_advance tick (hperiod.trans_eq h.period_eq.symm) active dt
      obtain ⟨count, hticks, caught⟩ := loop.exists_caughtUp
      have hfed : (x.perform tick (.advance dt)).fed = x.fed + dt := if_pos active
      exact h.caughtUp (forward dt rfl) active hticks hfed caught loop.not_due

theorem conserves_run (tick : σ → Bool × σ) (hperiod : 0 < period) (s : σ) {calls : List Call}
    (forward : ∀ dt, .advance dt ∈ calls → 0 ≤ dt) :
    Conserves tick period s (run tick period s calls) := by
  have fold : ∀ x, Conserves tick period s x →
      Conserves tick period s (calls.foldl (perform tick) x) := by
    induction calls with
    | nil => exact fun x h => h
    | cons call rest ih =>
      intro x h
      refine ih (fun dt hdt => forward dt (List.mem_cons_of_mem call hdt)) _ (h.perform hperiod ?_)
      rintro dt rfl
      exact forward dt List.mem_cons_self
  exact fold _ (conserves_new hperiod s)

theorem Conserves.ticks_le (h : Conserves tick period s x) (hperiod : 0 < period) :
    (x.ticks : ℤ) ≤ max 0 (⌈x.fed / period⌉ - 1) := by
  rcases h.overdue with none | overdue
  · rw [none]
    exact le_max_left 0 _
  · have inside : ((x.ticks : ℤ) : ℚ) < x.fed / period := by
      rw [lt_div_iff₀ hperiod]
      exact overdue
    have below := Int.lt_ceil.mpr inside
    exact le_max_of_le_right (Int.le_sub_one_of_lt below)

theorem Conserves.ticks_eq (h : Conserves tick period s x) (hperiod : 0 < period)
    (quiet : ∀ j < x.ticks, haltsAt tick s j = false) :
    (x.ticks : ℤ) = max 0 (⌈x.fed / period⌉ - 1) := by
  refine le_antisymm (h.ticks_le hperiod) (max_le (Int.natCast_nonneg _) ?_)
  have ahead := h.ahead quiet
  rw [h.balance] at ahead
  have enough : x.fed / period ≤ ((x.ticks + 1 : ℤ) : ℚ) := by
    rw [div_le_iff₀ hperiod]
    push_cast
    linarith
  have above := Int.ceil_le.mpr enough
  linarith

theorem Conserves.ticks_unique {x' : Session σ} (h : Conserves tick period s x)
    (h' : Conserves tick period s x') (hperiod : 0 < period) (hfed : x'.fed = x.fed)
    (quiet : ∀ j < x.ticks, haltsAt tick s j = false) :
    x'.ticks = x.ticks ∧ x'.state = x.state := by
  have le : x'.ticks ≤ x.ticks := by
    have bound := h'.ticks_le hperiod
    rw [hfed, ← h.ticks_eq hperiod quiet] at bound
    exact Int.ofNat_le.mp bound
  have same : x'.ticks = x.ticks := by
    have count := h'.ticks_eq hperiod fun j hj => quiet j (Nat.lt_of_lt_of_le hj le)
    rw [hfed, ← h.ticks_eq hperiod quiet] at count
    exact Int.ofNat_inj.mp count
  exact ⟨same, by rw [h'.state_eq, h.state_eq, same]⟩

theorem Conserves.countdown_nonneg (h : Conserves tick period s x) (hperiod : 0 < period)
    (active : x.clock.active = true) (dt : ℚ)
    (quiet : ∀ j, x.ticks ≤ j → j < (x.perform tick (.advance dt)).ticks →
      haltsAt tick s j = false) : 0 ≤ (x.perform tick (.advance dt)).clock.countdown := by
  have loop := catchesUp_advance tick (hperiod.trans_eq h.period_eq.symm) active dt
  obtain ⟨count, hticks, caught⟩ := loop.exists_caughtUp
  dsimp only at hticks caught
  refine caught.ahead active loop.not_due fun j hj => ?_
  rw [h.state_eq, haltsAt_iterate]
  refine quiet _ (Nat.le_add_right _ j) ?_
  rw [hticks]
  exact Nat.add_lt_add_left hj _

/-- Whatever a new clock is asked to do while time goes forward, all the time that it was fed while
it was active is in its countdown and its ticks, also if a tick has halted it or it was stopped. The
loop of every advance ends, and with a debt only if a tick halted. As long as no tick halts, there
is a tick for each whole period that the time has gone beyond, so other calls that feed the same
time in other portions perform the same ticks. -/
theorem time_conserved (tick : σ → Bool × σ) (hperiod : 0 < period) (s : σ) {calls : List Call}
    (forward : ∀ dt, .advance dt ∈ calls → 0 ≤ dt) (reached : run tick period s calls = x) :
    x.clock.countdown = period + x.ticks * period - x.fed ∧
    x.clock.countdown ≤ period ∧
    x.state = (fun s => (tick s).2)^[x.ticks] s ∧
    (∀ dt, x.clock.active = true → ∀ x', x.perform tick (.advance dt) = x' →
      CatchesUp (counted tick) (x.clock.late dt) (x.state, x.ticks) x'.clock (x'.state, x'.ticks) ∧
      ((∀ j, x.ticks ≤ j → j < x'.ticks → haltsAt tick s j = false) → 0 ≤ x'.clock.countdown)) ∧
    ((∀ j < x.ticks, haltsAt tick s j = false) →
      (x.ticks : ℤ) = max 0 (⌈x.fed / period⌉ - 1) ∧
      ∀ calls', (∀ dt, .advance dt ∈ calls' → 0 ≤ dt) → ∀ x', run tick period s calls' = x' →
        x'.fed = x.fed → x'.ticks = x.ticks ∧ x'.state = x.state) := by
  have h : Conserves tick period s x := reached ▸ conserves_run tick hperiod s forward
  refine ⟨h.balance, h.countdown_le, h.state_eq, ?_, fun quiet => ⟨h.ticks_eq hperiod quiet, ?_⟩⟩
  · rintro dt active x' rfl
    exact ⟨catchesUp_advance tick (hperiod.trans_eq h.period_eq.symm) active dt,
      h.countdown_nonneg hperiod active dt⟩
  · rintro calls' forward' x' rfl hfed
    exact h.ticks_unique (conserves_run tick hperiod s forward') hperiod hfed quiet

def sixTicks (count : Nat) : Bool × Nat :=
  (count == 5, count + 1)

def portions : List Call :=
  [.start, .advance (21 / 2), .stop, .advance 100, .start, .advance (49 / 2)]

theorem time_conserved_portions : (run sixTicks 10 0 portions).fed = 35 ∧
    (run sixTicks 10 0 portions).ticks = 3 ∧
    (run sixTicks 10 0 portions).clock.countdown = 5 := by
  have fed : (run sixTicks 10 0 portions).fed = 35 := by decide +kernel
  have forward : ∀ dt, .advance dt ∈ portions → 0 ≤ dt := by
    simp only [portions, List.mem_cons, List.not_mem_nil, reduceCtorEq, Call.advance.injEq,
      false_or, or_false]
    rintro dt (rfl | rfl | rfl) <;> norm_num
  obtain ⟨balance, -, -, -, counted⟩ :=
    time_conserved sixTicks (by norm_num : (0 : ℚ) < 10) 0 forward rfl
  have quiet : ∀ j < (run sixTicks 10 0 portions).ticks, haltsAt sixTicks 0 j = false := by
    decide +kernel
  have ticks := (counted quiet).1
  rw [fed] at ticks balance
  have three : (run sixTicks 10 0 portions).ticks = 3 := by
    have periods : ⌈(35 : ℚ) / 10⌉ = 4 := by norm_num
    rw [periods] at ticks
    omega
  refine ⟨fed, three, ?_⟩
  rw [balance, three]
  norm_num

end Session

end Clock

end BusMachine
