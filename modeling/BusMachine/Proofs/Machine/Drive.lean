import BusMachine.Proofs.Clock.Callbacks
import BusMachine.Proofs.Datapath.Renumbering
import BusMachine.Proofs.Machine.Operation
import BusMachine.Proofs.Sequencer.Cycles

/-!
The ways to drive a machine: tick by tick, instruction by instruction, up to a halt or by a clock.
All of them perform cycles of the sequencer, as many as they report and none behind a halt.
-/

namespace BusMachine

inductive Call where
  | tick
  | advance (dt : Float)
  | finishInstruction (budget : Nat)
  | runToHalt (budget : Nat)
  | start
  | stop
deriving Repr

def Call.operation {δ : Type} : Call → Operation δ
  | .tick => .tick
  | .advance dt => .advance dt
  | .finishInstruction budget => .finishInstruction budget
  | .runToHalt budget => .runToHalt budget
  | .start => .start
  | .stop => .stop

def RunResult.ticksWithin (budget : Nat) : RunResult → Nat
  | .halted ticks => ticks
  | .budgetExhausted => budget

namespace Machine

variable {arch : Architecture} {δ : Type} [Device δ]

/-- The number of ticks that a call reports: one, what it returns, its whole budget if that was used
up, or the callbacks of the clock. -/
def reported (m : Machine arch δ) : Call → Nat
  | .tick => 1
  | .advance dt => m.clock.callbacks dt advance.clockTick (m.datapath, m.ticks)
  | .finishInstruction budget => (m.finishInstruction budget).1
  | .runToHalt budget => (m.runToHalt budget).1.ticksWithin budget
  | .start | .stop => 0

def drive (m : Machine arch δ) (calls : List Call) : Machine arch δ :=
  calls.foldl (fun m call => m.perform call.operation) m

def reportedTotal (m : Machine arch δ) : List Call → Nat
  | [] => 0
  | call :: rest => m.reported call + (m.perform call.operation).reportedTotal rest

@[simp] theorem drive_nil (m : Machine arch δ) : m.drive [] = m := rfl

@[simp] theorem drive_cons (m : Machine arch δ) (call : Call) (rest : List Call) :
    m.drive (call :: rest) = (m.perform call.operation).drive rest := rfl

theorem drive_append (m : Machine arch δ) (calls more : List Call) :
    m.drive (calls ++ more) = (m.drive calls).drive more :=
  List.foldl_append

/-- A machine `m'` to which `count` cycles have led, none of them behind a halt. A halt has stopped
the clock. -/
structure Ran (m m' : Machine arch δ) (count : Nat) : Prop where
  datapath_eq : m'.datapath = arch.sequencer.cycles count m.datapath
  ticks_eq : m'.ticks = m.ticks + count
  quiet : ∀ k, k + 1 < count → arch.sequencer.haltsAt m.datapath k = false
  stopped : ∀ k < count, arch.sequencer.haltsAt m.datapath k = true → m'.clock.active = false

theorem Ran.none {m m' : Machine arch δ} (hdatapath : m'.datapath = m.datapath)
    (hticks : m'.ticks = m.ticks) : Ran m m' 0 :=
  ⟨hdatapath, hticks, by omega, by omega⟩

theorem haltsAt_zero (m : Machine arch δ) :
    arch.sequencer.haltsAt m.datapath 0 = m.tick.1.halted :=
  rfl

theorem haltsAt_tick (m : Machine arch δ) (k : Nat) :
    arch.sequencer.haltsAt m.tick.2.datapath k = arch.sequencer.haltsAt m.datapath (k + 1) := by
  rw [Nat.add_comm]
  exact arch.sequencer.haltsAt_cycles m.datapath 1 k

theorem clock_tick (m : Machine arch δ) :
    m.tick.2.clock = if m.tick.1.halted then m.clock.stop else m.clock :=
  rfl

theorem ran_tick (m : Machine arch δ) : Ran m m.tick.2 1 := by
  refine ⟨rfl, rfl, by omega, fun k hk hhalt => ?_⟩
  obtain rfl : k = 0 := by omega
  rw [haltsAt_zero] at hhalt
  rw [clock_tick, if_pos hhalt]
  rfl

theorem Ran.cons {m m' : Machine arch δ} {count : Nat} (hquiet : m.tick.1.halted = false)
    (h : Ran m.tick.2 m' count) : Ran m m' (count + 1) := by
  have ticked := ran_tick m
  refine ⟨?_, ?_, fun k hk => ?_, fun k hk => ?_⟩
  · rw [h.datapath_eq, ticked.datapath_eq, Nat.add_comm, Sequencer.cycles_add]
  · rw [h.ticks_eq, ticked.ticks_eq, Nat.add_assoc, Nat.add_comm 1]
  · cases k with
    | zero => exact hquiet
    | succ k =>
      rw [← haltsAt_tick]
      exact h.quiet k (by omega)
  · cases k with
    | zero =>
      intro hhalt
      rw [haltsAt_zero, hquiet] at hhalt
      cases hhalt
    | succ k =>
      rw [← haltsAt_tick]
      exact h.stopped k (by omega)

theorem datapath_tick (m : Machine arch δ) :
    m.tick.2.datapath = (arch.sequencer.cycle m.datapath).2 :=
  rfl

def after (count : Nat) (m : Machine arch δ) : Machine arch δ := (fun m => m.tick.2)^[count] m

theorem after_succ (count : Nat) (m : Machine arch δ) :
    m.after (count + 1) = m.tick.2.after count :=
  rfl

theorem after_succ_eq_tick (count : Nat) (m : Machine arch δ) :
    m.after (count + 1) = (m.after count).tick.2 :=
  Function.iterate_succ_apply' _ _ _

theorem datapath_after (count : Nat) (m : Machine arch δ) :
    (m.after count).datapath = arch.sequencer.cycles count m.datapath := by
  have cycles : Function.Semiconj Machine.datapath (fun m : Machine arch δ => m.tick.2)
      fun d => (arch.sequencer.cycle d).2 := datapath_tick
  exact cycles.iterate_right count m

def observe (m : Machine arch δ) : Sequencer.Observation where
  report := m.tick.1
  bus := m.tick.2.datapath.bus
  accesses := (arch.sequencer.asserted m.datapath).traffic

theorem observe_eq (m : Machine arch δ) : m.observe = arch.sequencer.observe m.datapath :=
  rfl

/-- Where the ticks up to the next instruction end: behind a halt, when the first step is due, or
when the budget is used up. -/
structure Finished (m m' : Machine arch δ) (budget count : Nat) : Prop where
  ran : Ran m m' count
  count_le : count ≤ budget
  inner : ∀ k, 0 < k → k < count →
    (arch.sequencer.cycles k m.datapath).values[arch.sequencer.tick] ≠ 0
  ended : count = budget ∨
    0 < count ∧ (arch.sequencer.haltsAt m.datapath (count - 1) = true ∨ m'.step = 0)

theorem finishInstruction_go (budget done : Nat) (m : Machine arch δ) :
    ∃ count, (finishInstruction.go budget done m).1 = done + count ∧
      Finished m (finishInstruction.go budget done m).2 budget count := by
  induction budget generalizing done m with
  | zero => exact ⟨0, rfl, .none rfl rfl, Nat.le_refl 0, by omega, .inl rfl⟩
  | succ budget ih =>
    rw [finishInstruction.go]
    dsimp only
    cases hhalt : m.tick.1.halted with
    | true =>
      rw [Bool.true_or, if_pos rfl]
      exact ⟨1, rfl, ran_tick m, by omega, by omega, .inr ⟨Nat.one_pos, .inl hhalt⟩⟩
    | false =>
      by_cases hstep : m.tick.2.step = 0
      · rw [if_pos (by simpa using hstep)]
        exact ⟨1, rfl, ran_tick m, by omega, by omega, .inr ⟨Nat.one_pos, .inr hstep⟩⟩
      · rw [if_neg (by simpa using hstep)]
        obtain ⟨count, hcount, h⟩ := ih (done + 1) m.tick.2
        refine ⟨count + 1, ?_, h.ran.cons hhalt, Nat.succ_le_succ h.count_le, ?_, ?_⟩
        · rw [hcount, Nat.add_assoc, Nat.add_comm 1]
        · intro k hpos hk
          obtain ⟨k, rfl⟩ := Nat.exists_eq_add_of_le hpos
          rw [Nat.succ_eq_add_one, Nat.zero_add, Sequencer.cycles_add]
          cases k with
          | zero => exact hstep
          | succ k => exact h.inner (k + 1) (Nat.succ_pos k) (by omega)
        · obtain hbudget | ⟨hpos, hhalted | hlast⟩ := h.ended
          · exact .inl (by rw [hbudget])
          · refine .inr ⟨Nat.succ_pos count, .inl ?_⟩
            rw [haltsAt_tick, Nat.sub_add_cancel hpos] at hhalted
            exact hhalted
          · exact .inr ⟨Nat.succ_pos count, .inr hlast⟩

theorem finishInstruction_preserves {P : Machine arch δ → Prop} (step : ∀ m, P m → P m.tick.2)
    (budget : Nat) {m : Machine arch δ} (h : P m) : P (m.finishInstruction budget).2 := by
  have go : ∀ done, P (finishInstruction.go budget done m).2 := by
    induction budget generalizing m with
    | zero => exact fun done => h
    | succ budget ih =>
      intro done
      rw [finishInstruction.go]
      dsimp only
      split
      · exact step m h
      · exact ih (step m h) (done + 1)
  exact go 0

theorem finishInstruction_finished (budget : Nat) (m : Machine arch δ) :
    Finished m (m.finishInstruction budget).2 budget (m.finishInstruction budget).1 := by
  have ⟨count, hcount, h⟩ := finishInstruction_go budget 0 m
  rw [Nat.zero_add] at hcount
  exact hcount ▸ h

def delayed (before : Nat) : RunResult × Machine arch δ → RunResult × Machine arch δ
  | (.halted ticks, m) => (.halted (before + ticks), m)
  | (.budgetExhausted, m) => (.budgetExhausted, m)

theorem runToHalt_go (budget count : Nat) (m : Machine arch δ) :
    runToHalt.go budget (count + 1) m = delayed count (m.runToHalt budget) := by
  have shifted : ∀ shift, runToHalt.go budget (shift + count + 1) m =
      delayed count (runToHalt.go budget (shift + 1) m) := by
    induction budget generalizing m with
    | zero => exact fun shift => rfl
    | succ budget ih =>
      intro shift
      rw [runToHalt.go, runToHalt.go]
      dsimp only
      cases m.tick.1.halted with
      | true =>
        rw [if_pos rfl, if_pos rfl, delayed]
        congr 2
        omega
      | false =>
        have later := ih m.tick.2 (shift + 1)
        rw [show shift + 1 + count + 1 = shift + count + 1 + 1 by omega] at later
        exact later
  have once := shifted 0
  rw [Nat.zero_add] at once
  exact once

theorem runToHalt_zero (m : Machine arch δ) : m.runToHalt 0 = (.budgetExhausted, m) := rfl

theorem runToHalt_succ (m : Machine arch δ) (budget : Nat) :
    m.runToHalt (budget + 1) =
      if m.tick.1.halted then (.halted 1, m.tick.2)
      else delayed 1 (m.tick.2.runToHalt budget) := by
  have rest := runToHalt_go budget 1 m.tick.2
  rw [← rest]
  rfl

omit [Device δ] in
theorem delayed_delayed (first second : Nat) (outcome : RunResult × Machine arch δ) :
    delayed first (delayed second outcome) = delayed (first + second) outcome := by
  obtain ⟨result, m⟩ := outcome
  cases result with
  | halted ticks => simp [delayed, Nat.add_assoc]
  | budgetExhausted => rfl

theorem runToHalt_add (m : Machine arch δ) {budget : Nat} (more : Nat)
    (h : (m.runToHalt budget).1 = .budgetExhausted) :
    m.runToHalt (budget + more) = delayed budget ((m.runToHalt budget).2.runToHalt more) := by
  induction budget generalizing m with
  | zero =>
    rw [Nat.zero_add, runToHalt_zero]
    cases hrun : m.runToHalt more with
    | mk result m' => cases result <;> simp [delayed]
  | succ budget ih =>
    rw [runToHalt_succ] at h
    rw [Nat.add_right_comm, runToHalt_succ, runToHalt_succ]
    cases hhalt : m.tick.1.halted with
    | true =>
      rw [hhalt, if_pos rfl] at h
      cases h
    | false =>
      rw [hhalt, if_neg Bool.false_ne_true] at h
      rw [if_neg Bool.false_ne_true, if_neg Bool.false_ne_true]
      cases hrun : m.tick.2.runToHalt budget with
      | mk result m' =>
        rw [hrun] at h
        cases result with
        | halted ticks => cases h
        | budgetExhausted =>
          have rest := ih m.tick.2 (by rw [hrun])
          rw [hrun] at rest
          rw [rest, delayed_delayed, Nat.add_comm 1]
          rfl

theorem runToHalt_preserves {P : Machine arch δ → Prop} (step : ∀ m, P m → P m.tick.2)
    (budget : Nat) {m : Machine arch δ} (h : P m) : P (m.runToHalt budget).2 := by
  induction budget generalizing m with
  | zero => exact h
  | succ budget ih =>
    have rest := ih (step m h)
    rw [runToHalt_succ]
    split
    · exact step m h
    · cases hrun : m.tick.2.runToHalt budget with
      | mk result m' =>
        rw [hrun] at rest
        cases result <;> exact rest

theorem ran_runToHalt (m : Machine arch δ) (budget : Nat) :
    Ran m (m.runToHalt budget).2 ((m.runToHalt budget).1.ticksWithin budget) := by
  induction budget generalizing m with
  | zero => exact .none rfl rfl
  | succ budget ih =>
    rw [runToHalt_succ]
    cases hhalt : m.tick.1.halted with
    | true =>
      rw [if_pos rfl]
      exact ran_tick m
    | false =>
      have rest := ih m.tick.2
      rw [if_neg Bool.false_ne_true]
      cases hrun : m.tick.2.runToHalt budget with
      | mk result m' =>
        rw [hrun] at rest
        cases result with
        | halted ticks =>
          have longer := rest.cons hhalt
          rw [RunResult.ticksWithin, Nat.add_comm] at longer
          exact longer
        | budgetExhausted => exact rest.cons hhalt

theorem advance_of_inactive {m : Machine arch δ} (h : m.clock.active = false) (dt : Float) :
    m.advance dt = (false, m) := by
  unfold advance
  rw [Clock.advance_of_inactive h]

theorem iterate_clockTick (count : Nat) (d : Datapath arch.toCircuit δ) (ticks : Nat) :
    (fun s => (advance.clockTick s).2)^[count] (d, ticks) =
      (arch.sequencer.cycles count d, ticks + count) := by
  induction count with
  | zero => rfl
  | succ count ih => rw [Function.iterate_succ_apply', ih, Sequencer.cycles_succ]; rfl

theorem ran_advance (m : Machine arch δ) (dt : Float) :
    Ran m (m.advance dt).2 (m.reported (.advance dt)) := by
  have performed := Clock.advance_performed advance.clockTick m.clock dt (m.datapath, m.ticks)
  have reached := performed.state_eq
  have halts : ∀ j, (advance.clockTick ((fun s => (advance.clockTick s).2)^[j]
      (m.datapath, m.ticks))).1 = arch.sequencer.haltsAt m.datapath j := by
    intro j
    rw [iterate_clockTick]
    rfl
  rw [iterate_clockTick] at reached
  constructor
  · exact congrArg Prod.fst reached
  · exact congrArg Prod.snd reached
  · intro k hk
    rw [← halts]
    exact performed.quiet k hk
  · intro k hk hhalt
    rw [← halts] at hhalt
    exact performed.stopped k hk hhalt

theorem ran_call (m : Machine arch δ) (call : Call) :
    Ran m (m.perform call.operation) (m.reported call) := by
  cases call with
  | tick => exact ran_tick m
  | advance dt => exact ran_advance m dt
  | finishInstruction budget => exact (finishInstruction_finished budget m).ran
  | runToHalt budget => exact ran_runToHalt m budget
  | start => exact .none rfl rfl
  | stop => exact .none rfl rfl

theorem clock_inactive_call {m : Machine arch δ} (h : m.clock.active = false) {call : Call}
    (hcall : call ≠ .start) : (m.perform call.operation).clock.active = false := by
  have ticked : ∀ m : Machine arch δ, m.clock.active = false → m.tick.2.clock.active = false := by
    intro m h
    rw [clock_tick]
    split
    · rfl
    · exact h
  cases call with
  | tick => exact ticked m h
  | advance dt =>
    show (m.advance dt).2.clock.active = false
    rw [advance_of_inactive h]
    exact h
  | finishInstruction budget => exact finishInstruction_preserves ticked budget h
  | runToHalt budget => exact runToHalt_preserves ticked budget h
  | start => exact absurd rfl hcall
  | stop => rfl

theorem clock_inactive_drive {m : Machine arch δ} (h : m.clock.active = false) {calls : List Call}
    (hcalls : .start ∉ calls) : (m.drive calls).clock.active = false := by
  induction calls generalizing m with
  | nil => exact h
  | cons call rest ih =>
    rw [List.mem_cons, not_or] at hcalls
    exact ih (clock_inactive_call h (Ne.symm hcalls.1)) hcalls.2

theorem ran_drive (m : Machine arch δ) (calls : List Call) :
    (m.drive calls).ticks = m.ticks + m.reportedTotal calls ∧
      (m.drive calls).datapath = arch.sequencer.cycles (m.reportedTotal calls) m.datapath := by
  induction calls generalizing m with
  | nil => exact ⟨rfl, rfl⟩
  | cons call rest ih =>
    have first := ran_call m call
    have ⟨hticks, hdatapath⟩ := ih (m.perform call.operation)
    rw [first.ticks_eq] at hticks
    rw [first.datapath_eq, ← Sequencer.cycles_add] at hdatapath
    exact ⟨hticks.trans (Nat.add_assoc _ _ _), hdatapath⟩

/-- However a machine is driven, its datapath goes through the cycles of its sequencer, one for each
tick that is counted and reported. No tick of a call follows a halt, a halt stops the clock until it
is started, a clock that stands still ignores time, and a run whose budget is used up can go on. -/
theorem drive_eq_cycles (m : Machine arch δ) (calls : List Call) :
    (m.drive calls).ticks = m.ticks + m.reportedTotal calls ∧
    (m.drive calls).datapath = arch.sequencer.cycles (m.reportedTotal calls) m.datapath ∧
    (∀ before call after, calls = before ++ call :: after →
      (∀ k, k + 1 < (m.drive before).reported call →
        arch.sequencer.haltsAt (m.drive before).datapath k = false) ∧
      ∀ k < (m.drive before).reported call,
        arch.sequencer.haltsAt (m.drive before).datapath k = true →
          .start ∉ after → (m.drive calls).clock.active = false) ∧
    (∀ dt, m.clock.active = false → m.advance dt = (false, m)) ∧
    ∀ budget more, (m.runToHalt budget).1 = .budgetExhausted →
      m.runToHalt (budget + more) = delayed budget ((m.runToHalt budget).2.runToHalt more) := by
  have ⟨hticks, hdatapath⟩ := ran_drive m calls
  refine ⟨hticks, hdatapath, fun before call after hcalls => ?_,
    fun dt h => advance_of_inactive h dt, fun budget more h => runToHalt_add m more h⟩
  have ran := ran_call (m.drive before) call
  refine ⟨ran.quiet, fun k hk hhalt hstart => ?_⟩
  rw [hcalls, drive_append, drive_cons]
  exact clock_inactive_drive (ran.stopped k hk hhalt) hstart

end Machine

end BusMachine
