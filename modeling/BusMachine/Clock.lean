/-!
A clock that turns elapsed time into ticks. It counts down the time to its next tick; when time is
fed to it that reaches beyond that tick, it catches up with one tick a period until it is ahead
again, or until a tick halts it.
-/

namespace BusMachine

/-- What a clock asks of a type of lengths of time. -/
class Duration (τ : Type) extends Add τ, Sub τ where
  zero : τ
  le : τ → τ → Bool
  lt : τ → τ → Bool
  /-- A number of periods that is enough to make up for `debt` if any number is. -/
  enough (period debt : τ) : Nat

/-- A debt that goes down at all takes a new negative double with every period, and there are fewer
than `2 ^ 63` of those. -/
instance : Duration Float where
  zero := 0
  le a b := decide (a ≤ b)
  lt a b := decide (a < b)
  enough _ _ := 0x8000_0000_0000_0000

structure Clock (τ : Type) where
  period : τ
  active : Bool
  /-- The time that is left to the next tick. -/
  countdown : τ

namespace Clock

variable {τ : Type} {σ : Type u}

/-- A clock that stands still, one period before its first tick. -/
def new (period : τ) : Clock τ := { period, active := false, countdown := period }

def start (k : Clock τ) : Clock τ := { k with active := true }

def stop (k : Clock τ) : Clock τ := { k with active := false }

variable [Duration τ]

def due (k : Clock τ) : Bool := k.active && Duration.lt k.countdown Duration.zero

/-- Ticks until the clock is no longer due, at most `fuel` times. A tick changes the state and
tells whether it halts the clock. -/
def catchUp (tick : σ → Bool × σ) : Nat → Clock τ → σ → Clock τ × σ
  | 0, k, s => (k, s)
  | fuel + 1, k, s =>
    if k.due then
      let (halted, s) := tick s
      catchUp tick fuel { k with countdown := k.countdown + k.period, active := !halted } s
    else (k, s)

/-- Feeds time to the clock. Tells whether at least one tick was performed. -/
def advance (k : Clock τ) (dt : τ) (tick : σ → Bool × σ) (s : σ) : Bool × Clock τ × σ :=
  if k.active then
    let left := if Duration.le k.countdown k.period then k.countdown else k.period
    let k := { k with countdown := left - dt }
    (k.due, catchUp tick (Duration.enough k.period k.countdown) k s)
  else (false, k, s)

end Clock

end BusMachine
