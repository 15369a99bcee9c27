import BusMachine.Annotation
import BusMachine.InlineTest.Assertion
import BusMachine.Machine

/-!
Running test blocks. Each block lets the machine run up to its next halt and then judges the state
it is in; the machine goes on behind the halt for the next block. A block that meets no halt within
its budget of ticks fails, and no block after it is run.
-/

namespace BusMachine.InlineTest

inductive Unobservable where
  | component (fault : RequestFault)
  | outsideMemory (address : Int)
  | unknownLabel (label : String)
deriving DecidableEq, Repr

def Unobservable.message : Unobservable → String
  | component fault => fault.message
  | outsideMemory address => s!"address {address} is outside memory"
  | unknownLabel label => s!"unknown label '{label}'"

/-- An assertion with the actual and the expected value, or why there are none. -/
structure Verdict where
  assertion : Assertion
  observed : Except Unobservable (Int × Int)

namespace Verdict

def passed (v : Verdict) : Bool :=
  match v.observed with
  | .ok (actual, expected) => v.assertion.comparison.holds actual expected
  | .error _ => false

def actual (v : Verdict) : String :=
  match v.observed with
  | .ok (actual, _) => toString actual
  | .error reason => reason.message

def text (v : Verdict) : String :=
  if v.passed then s!"PASS: {v.assertion.text}"
  else s!"FAIL: {v.assertion.text} (got {v.actual})"

end Verdict

structure BlockResult where
  startLine : Nat
  endLine : Nat
  verdicts : List Verdict
  ticks : Option Nat

namespace BlockResult

def passed (r : BlockResult) : Bool := r.ticks.isSome && r.verdicts.all Verdict.passed

def failures (r : BlockResult) : List Verdict := r.verdicts.filter (!·.passed)

def text (r : BlockResult) : String :=
  let lines := s!"(lines {r.startLine}-{r.endLine})"
  if r.passed then s!"PASS {lines}: {r.verdicts.length} assertions"
  else if r.ticks.isNone then s!"FAIL {lines}: no hlt reached within the tick budget"
  else s!"FAIL {lines}: {r.failures.length} assertion(s) failed"

end BlockResult

structure Report where
  results : List BlockResult
  /-- The number of blocks that were not run. -/
  unexecuted : Nat

namespace Report

def passed (r : Report) : Nat := r.results.countP BlockResult.passed

def failed (r : Report) : Nat := r.results.length - r.passed

def total (r : Report) : Nat := r.results.length + r.unexecuted

def allPassed (r : Report) : Bool := r.unexecuted == 0 && r.results.all BlockResult.passed

def summary (r : Report) : String :=
  let counts := s!"{r.passed} passed, {r.failed} failed"
  if r.unexecuted = 0 then counts else s!"{counts}, {r.unexecuted} unexecuted"

end Report

variable {arch : Architecture} {δ : Type}

def WrittenValue.value (annotations : Annotations) : WrittenValue → Except Unobservable Int
  | .literal n => .ok n
  | .label name =>
    match annotations.address? name with
    | some address => .ok address
    | none => .error (.unknownLabel name)

def Subject.value (annotations : Annotations) (d : Datapath arch.toCircuit δ) :
    Subject → Except Unobservable Int
  | .component name =>
    match d.valueOf name with
    | .ok value => .ok value
    | .error fault => .error (.component fault)
  | .memory address => do
    let address ← address.value annotations
    if h : 0 ≤ address ∧ address.toNat < arch.memorySize then
      return d.memory.get ⟨address.toNat, h.2⟩
    else throw (.outsideMemory address)

def Assertion.judge (annotations : Annotations) (d : Datapath arch.toCircuit δ) (a : Assertion) :
    Verdict :=
  { assertion := a
    observed := do
      let actual ← a.subject.value annotations d
      let expected ← a.expected.value annotations
      return (actual, expected) }

variable [Device δ]

def Block.run (annotations : Annotations) (budget : Nat) (block : Block) (m : Machine arch δ) :
    BlockResult × Machine arch δ :=
  let (outcome, m) := m.runToHalt budget
  let ticks := match outcome with
    | .halted ticks => some ticks
    | .budgetExhausted => none
  ({ startLine := block.startLine, endLine := block.endLine, ticks,
     verdicts := block.assertions.map (·.judge annotations m.datapath) }, m)

/-- Runs blocks in order, up to the first that meets no halt. -/
def runBlocks (annotations : Annotations) (budget : Nat) :
    List Block → Machine arch δ → List BlockResult × Machine arch δ
  | [], m => ([], m)
  | block :: rest, m =>
    let (result, m) := block.run annotations budget m
    if result.ticks.isNone then ([result], m)
    else
      let (results, m) := runBlocks annotations budget rest m
      (result :: results, m)

def run (annotations : Annotations) (budget : Nat) (blocks : List Block) (m : Machine arch δ) :
    Report × Machine arch δ :=
  let (results, m) := runBlocks annotations budget blocks m
  ({ results, unexecuted := blocks.length - results.length }, m)

end BusMachine.InlineTest
