import BusMachine.Signal

/-!
Descriptions of components: what a component is called, what it does when its lines fire and which
lines it has. The order of a component list is the order in which a cycle visits the components.
-/

namespace BusMachine

/-- What a component does when its lines fire. -/
inductive Component.Kind where
  | register
  | memory (address : String)
  | port (selector : String)
  | adder (lhs rhs : String)
  | subtractor (lhs rhs : String)
deriving DecidableEq, Repr

/-- The lines that a component of a kind can serve at all. -/
def Component.Kind.servedLines : Component.Kind → Lines
  | .register => .full
  | .memory _ | .port _ => { latch := true, drive := true }
  | .adder _ _ | .subtractor _ _ => { drive := true }

structure Component where
  name : String
  kind : Component.Kind := .register
  lines : Lines := .full
  /-- A register of two words, whose halves have names of their own. -/
  double : Bool := false
deriving DecidableEq, Repr

namespace Component

def width (c : Component) : Nat := if c.double then 2 else 1

def lowName (c : Component) : String := c.name ++ "_l"

def highName (c : Component) : String := c.name ++ "_h"

def register (name : String) (lines : Lines) : Component := { name, lines }

def ofKind (name : String) (kind : Kind) : Component := { name, kind, lines := kind.servedLines }

end Component

def standardComponents : List Component :=
  let store : Lines := { latch := true, drive := true }
  let clearable : Lines := { store with reset := true }
  [.register "instruction" store,
    .register "tick" { latch := true, incr := true, reset := true },
    .register "pc" .full,
    .register "address" store,
    .register "a" clearable,
    .register "b" clearable,
    .register "x" clearable,
    .register "y" clearable,
    .register "stack_ptr" clearable,
    .register "io_target" store,
    .ofKind "memory" (.memory "address"),
    .ofKind "io" (.port "io_target"),
    .ofKind "sum" (.adder "a" "b"),
    .ofKind "sub" (.subtractor "a" "b")]

end BusMachine
