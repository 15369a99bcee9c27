import BusMachine.Architecture
import BusMachine.Clock

/-!
Machines: a datapath driven by its sequencer, by hand or by a clock.
-/

namespace BusMachine

structure Machine (arch : Architecture) (δ : Type) where
  datapath : Datapath arch.toCircuit δ
  clock : Clock Float
  /-- The number of ticks since the machine was new or was reset. -/
  ticks : Nat

inductive RunResult where
  | halted (ticks : Nat)
  | budgetExhausted
deriving DecidableEq, Repr

namespace Machine

variable {arch : Architecture} {δ : Type}

def new (arch : Architecture) : Machine arch δ where
  datapath := .initial
  clock := .new arch.params.clockPeriod
  ticks := 0

/-- Sets registers, bus, flags, clock and tick count back. Memory and ports stay as they are. -/
def reset (m : Machine arch δ) : Machine arch δ where
  datapath := m.datapath.reset
  clock := .new arch.params.clockPeriod
  ticks := 0

def start (m : Machine arch δ) : Machine arch δ := { m with clock := m.clock.start }

def stop (m : Machine arch δ) : Machine arch δ := { m with clock := m.clock.stop }

def load (m : Machine arch δ) (image : Array Word) : Except RequestFault (Machine arch δ) :=
  match m.datapath.load image with
  | .ok datapath => .ok { m with datapath }
  | .error fault => .error fault

def step (m : Machine arch δ) : Word := m.datapath.values[arch.sequencer.tick]

variable [Device δ]

/-- Performs one cycle, whether or not the clock runs. A halt stops the clock. -/
def tick (m : Machine arch δ) : CycleReport × Machine arch δ :=
  let (report, datapath) := arch.sequencer.cycle m.datapath
  let clock := if report.halted then m.clock.stop else m.clock
  (report, { datapath, clock, ticks := m.ticks + 1 })

/-- Performs ticks up to the next instruction or a halt, at most `budget`. -/
def finishInstruction (budget : Nat) (m : Machine arch δ) : Nat × Machine arch δ :=
  go budget 0 m
where
  go : Nat → Nat → Machine arch δ → Nat × Machine arch δ
    | 0, done, m => (done, m)
    | budget + 1, done, m =>
      let (report, m) := m.tick
      if report.halted || m.step == 0 then (done + 1, m) else go budget (done + 1) m

def runToHalt (budget : Nat) (m : Machine arch δ) : RunResult × Machine arch δ :=
  go budget 1 m
where
  go : Nat → Nat → Machine arch δ → RunResult × Machine arch δ
    | 0, _, m => (.budgetExhausted, m)
    | budget + 1, count, m =>
      let (report, m) := m.tick
      if report.halted then (.halted count, m) else go budget (count + 1) m

/-- Feeds time to the clock. Tells whether at least one tick was performed. -/
def advance (m : Machine arch δ) (dt : Float) : Bool × Machine arch δ :=
  let (ticked, clock, datapath, ticks) := m.clock.advance dt clockTick (m.datapath, m.ticks)
  (ticked, { datapath, clock, ticks })
where
  clockTick : Datapath arch.toCircuit δ × Nat → Bool × Datapath arch.toCircuit δ × Nat
    | (datapath, ticks) =>
      let (report, datapath) := arch.sequencer.cycle datapath
      (report.halted, datapath, ticks + 1)

end Machine

end BusMachine
