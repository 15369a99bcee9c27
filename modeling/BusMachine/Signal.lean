import BusMachine.Text.Case

/-!
Control lines. Each component of the machine listens to some of four lines; a `Lines` is a set of
them, used both for the lines that a component has and for those that are asserted in a cycle.
-/

namespace BusMachine

inductive Signal where
  | latch
  | drive
  | incr
  | reset
deriving DecidableEq, Repr

namespace Signal

def all : List Signal := [latch, drive, incr, reset]

def name : Signal → String
  | latch => "in"
  | drive => "out"
  | incr => "incr"
  | reset => "reset"

def ofName? (name : String) : Option Signal := all.find? fun s => Text.sameLetters s.name name

end Signal

/-- A set of control lines. -/
structure Lines where
  latch : Bool := false
  drive : Bool := false
  incr : Bool := false
  reset : Bool := false
deriving DecidableEq, Repr, Inhabited

namespace Lines

def none : Lines := {}

def full : Lines := ⟨true, true, true, true⟩

def contains (l : Lines) : Signal → Bool
  | .latch => l.latch
  | .drive => l.drive
  | .incr => l.incr
  | .reset => l.reset

def insert (l : Lines) : Signal → Lines
  | .latch => { l with latch := true }
  | .drive => { l with drive := true }
  | .incr => { l with incr := true }
  | .reset => { l with reset := true }

def union (l m : Lines) : Lines :=
  ⟨l.latch || m.latch, l.drive || m.drive, l.incr || m.incr, l.reset || m.reset⟩

def ofList (signals : List Signal) : Lines := signals.foldl insert none

def toList (l : Lines) : List Signal := Signal.all.filter l.contains

def isEmpty (l : Lines) : Bool := l == none

def text (l : Lines) : String :=
  "\x7b" ++ String.intercalate ", " (l.toList.map Signal.name) ++ "\x7d"

@[simp] theorem contains_none (s : Signal) : none.contains s = false := by
  cases s <;> rfl

@[simp] theorem contains_insert (l : Lines) (s t : Signal) :
    (l.insert s).contains t = (decide (s = t) || l.contains t) := by
  cases s <;> cases t <;> simp [insert, contains]

@[simp] theorem contains_union (l m : Lines) (s : Signal) :
    (l.union m).contains s = (l.contains s || m.contains s) := by
  cases s <;> rfl

theorem mem_toList {l : Lines} {s : Signal} : s ∈ l.toList ↔ l.contains s = true := by
  cases s <;> simp [toList, Signal.all]

theorem ext_contains {l m : Lines} (h : ∀ s, l.contains s = m.contains s) : l = m := by
  rcases l with ⟨_, _, _, _⟩
  rcases m with ⟨_, _, _, _⟩
  simpa [contains] using And.intro (h .latch) ⟨h .drive, h .incr, h .reset⟩

end Lines

end BusMachine
