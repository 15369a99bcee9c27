import BusMachine.Proofs.Datapath.Renumbering
import BusMachine.Proofs.Machine.Drive

/-!
Machines that differ in their ports only. Where the ports behave alike, so do the machines: whatever
is asked of both of them, they give the same answers and go on to differ in their ports only.
-/

namespace BusMachine

variable {δ δ' : Type} [Device δ] [Device δ']

/-- Two datapaths that differ in their ports only, which behave alike. -/
structure Datapath.Twins {c : Circuit} (d : Datapath c δ) (d' : Datapath c δ') : Prop where
  values : d'.values = d.values
  active : d'.active = d.active
  bus : d'.bus = d.bus
  flags : d'.flags = d.flags
  memory : d'.memory = d.memory
  halting : d'.halting = d.halting
  ports : d.ports.Alike d'.ports

/-- The same request was refused for the same reason, or it has left twins. -/
inductive Datapath.TwinOutcomes {c : Circuit} : Except RequestFault (Datapath c δ) →
    Except RequestFault (Datapath c δ') → Prop
  | refused (fault : RequestFault) : TwinOutcomes (.error fault) (.error fault)
  | changed {d : Datapath c δ} {d' : Datapath c δ'} (h : d.Twins d') :
    TwinOutcomes (.ok d) (.ok d')

namespace Datapath

variable {params : Parameters} {valid : params.Valid} {w : Wiring}

/-- Twins are what mirrors each other where no slot is renumbered. -/
theorem twins_iff_mirrors {d : Datapath ⟨params, valid, w⟩ δ}
    {d' : Datapath ⟨params, valid, w⟩ δ'} :
    d.Twins d' ↔ Mirrors (Equiv.refl _) d d' := by
  constructor
  · intro h
    exact ⟨⟨fun i => by simp [h.values], h.flags, h.memory, h.ports⟩, fun i => by simp [h.active],
      h.bus, h.halting⟩
  · intro h
    exact ⟨Vector.ext fun i hi => h.values ⟨i, hi⟩, Vector.ext fun i hi => h.active ⟨i, hi⟩, h.bus,
      h.flags, h.memory, h.halting, h.ports⟩

theorem Twins.endCycle {d : Datapath ⟨params, valid, w⟩ δ} {d' : Datapath ⟨params, valid, w⟩ δ'}
    (h : d.Twins d') : d.endCycle.Twins d'.endCycle := by
  have ended := (twins_iff_mirrors.mp h).endCycleBy (.refl w) (List.finRange w.size)
  simp only [Equiv.coe_refl, List.map_id] at ended
  rw [endCycle_eq_endCycleBy, endCycle_eq_endCycleBy, twins_iff_mirrors]
  exact ended.1

theorem Twins.cycle {d : Datapath ⟨params, valid, w⟩ δ} {d' : Datapath ⟨params, valid, w⟩ δ'}
    (h : d.Twins d') (q : Sequencer w) :
    (q.cycle d).1 = (q.cycle d').1 ∧ (q.cycle d).2.Twins (q.cycle d').2 := by
  have asserted : (q.asserted d).Twins (q.asserted d') :=
    twins_iff_mirrors.mpr
      (Sequencer.Reorders.asserted (.refl q) (twins_iff_mirrors.mp h).toResembles)
  have ended := asserted.endCycle
  refine ⟨?_, ended⟩
  show CycleReport.mk (d.values.get q.instruction) (d.values.get q.tick)
    (q.asserted d).endCycle.halting = CycleReport.mk (d'.values.get q.instruction)
      (d'.values.get q.tick) (q.asserted d').endCycle.halting
  rw [h.values, ended.halting]

theorem Twins.withMemory {c : Circuit} {d : Datapath c δ} {d' : Datapath c δ'} (h : d.Twins d')
    (memory : Vector Word c.memorySize) : Twins { d with memory } { d' with memory } :=
  ⟨h.values, h.active, h.bus, h.flags, rfl, h.halting, h.ports⟩

theorem Twins.writeCell {c : Circuit} {d : Datapath c δ} {d' : Datapath c δ'} (h : d.Twins d')
    (address : Nat) (value : Word) :
    TwinOutcomes (d.writeCell address value) (d'.writeCell address value) := by
  unfold Datapath.writeCell
  rw [h.memory]
  split
  · exact .changed (h.withMemory _)
  · exact .refused _

theorem Twins.load {c : Circuit} {d : Datapath c δ} {d' : Datapath c δ'} (h : d.Twins d')
    (image : Array Word) : TwinOutcomes (d.load image) (d'.load image) := by
  unfold Datapath.load
  split
  · exact .changed (h.withMemory _)
  · exact .refused _

end Datapath

namespace Clock

variable {τ : Type} {σ σ' : Type u} [Duration τ] {R : σ → σ' → Prop} {tick : σ → Bool × σ}
  {tick' : σ' → Bool × σ'}

/-- Two states that stand in a relation which every tick keeps, and on which all ticks agree whether
they halt, are still related when a clock has caught up on both. -/
theorem catchUp_rel (step : ∀ s s', R s s' → (tick s).1 = (tick' s').1 ∧ R (tick s).2 (tick' s').2)
    (fuel : Nat) (k : Clock τ) {s : σ} {s' : σ'} (h : R s s') :
    (catchUp tick fuel k s).1 = (catchUp tick' fuel k s').1 ∧
      R (catchUp tick fuel k s).2 (catchUp tick' fuel k s').2 := by
  induction fuel generalizing k s s' with
  | zero => exact ⟨rfl, h⟩
  | succ fuel ih =>
    obtain ⟨halts, next⟩ := step s s' h
    unfold catchUp
    split
    · dsimp only
      rw [halts]
      exact ih _ next
    · exact ⟨rfl, h⟩

theorem advance_rel (step : ∀ s s', R s s' → (tick s).1 = (tick' s').1 ∧ R (tick s).2 (tick' s').2)
    (k : Clock τ) (dt : τ) {s : σ} {s' : σ'} (h : R s s') :
    (k.advance dt tick s).1 = (k.advance dt tick' s').1 ∧
      (k.advance dt tick s).2.1 = (k.advance dt tick' s').2.1 ∧
      R (k.advance dt tick s).2.2 (k.advance dt tick' s').2.2 := by
  unfold advance
  split
  · exact ⟨rfl, catchUp_rel step _ _ h⟩
  · exact ⟨rfl, rfl, h⟩

end Clock

/-- What is asked of a machine that is driven and whose memory is changed. -/
inductive Request where
  | drive (call : Call)
  | writeCell (address : Nat) (value : Word)
  | load (image : Array Word)
deriving Repr

def Request.operation : Request → Operation δ
  | .drive call => call.operation
  | .writeCell address value => .writeCell address value
  | .load image => .load image

inductive Answer where
  | report (report : CycleReport)
  | ticked (ticked : Bool)
  | count (ticks : Nat)
  | outcome (result : RunResult)
  | done
  | refused (fault : RequestFault)
deriving DecidableEq, Repr

def Answer.ofExcept {α : Type} : Except RequestFault α → Answer
  | .ok _ => .done
  | .error fault => .refused fault

namespace Machine

variable {arch : Architecture}

def answer (m : Machine arch δ) : Request → Answer
  | .drive .tick => .report m.tick.1
  | .drive (.advance dt) => .ticked (m.advance dt).1
  | .drive (.finishInstruction budget) => .count (m.finishInstruction budget).1
  | .drive (.runToHalt budget) => .outcome (m.runToHalt budget).1
  | .drive .start | .drive .stop => .done
  | .writeCell address value => .ofExcept (m.datapath.writeCell address value)
  | .load image => .ofExcept (m.load image)

omit [Device δ] in
theorem ofExcept_load (m : Machine arch δ) (image : Array Word) :
    Answer.ofExcept (m.load image) = .ofExcept (m.datapath.load image) := by
  unfold load
  cases m.datapath.load image <;> rfl

def answers (m : Machine arch δ) : List Request → List Answer
  | [] => []
  | request :: rest => m.answer request :: (m.perform request.operation).answers rest

def serve (m : Machine arch δ) (requests : List Request) : Machine arch δ :=
  requests.foldl (fun m request => m.perform request.operation) m

/-- Two machines that differ in their ports only, which behave alike. -/
structure Twins (m : Machine arch δ) (m' : Machine arch δ') : Prop where
  datapath : m.datapath.Twins m'.datapath
  clock : m'.clock = m.clock
  ticks : m'.ticks = m.ticks

namespace Twins

variable {m : Machine arch δ} {m' : Machine arch δ'}

theorem tick (h : m.Twins m') : m.tick.1 = m'.tick.1 ∧ m.tick.2.Twins m'.tick.2 := by
  have ⟨report, next⟩ := h.datapath.cycle arch.sequencer
  have halted : m.tick.1.halted = m'.tick.1.halted := congrArg CycleReport.halted report
  refine ⟨report, next, ?_, ?_⟩
  · rw [clock_tick, clock_tick, halted, h.clock]
  · rw [m.ran_tick.ticks_eq, m'.ran_tick.ticks_eq, h.ticks]

theorem step (h : m.Twins m') : m.step = m'.step := by
  unfold Machine.step
  rw [h.datapath.values]

theorem finishInstruction (h : m.Twins m') (budget : Nat) :
    (m.finishInstruction budget).1 = (m'.finishInstruction budget).1 ∧
      (m.finishInstruction budget).2.Twins (m'.finishInstruction budget).2 := by
  have go : ∀ done,
      (finishInstruction.go budget done m).1 = (finishInstruction.go budget done m').1 ∧
        (finishInstruction.go budget done m).2.Twins (finishInstruction.go budget done m').2 := by
    induction budget generalizing m m' with
    | zero => exact fun done => ⟨rfl, h⟩
    | succ budget ih =>
      intro done
      have ⟨report, next⟩ := h.tick
      rw [finishInstruction.go, finishInstruction.go]
      dsimp only
      rw [← report, ← next.step]
      split
      · exact ⟨rfl, next⟩
      · exact ih next (done + 1)
  exact go 0

theorem runToHalt (h : m.Twins m') (budget : Nat) :
    (m.runToHalt budget).1 = (m'.runToHalt budget).1 ∧
      (m.runToHalt budget).2.Twins (m'.runToHalt budget).2 := by
  have go : ∀ count,
      (runToHalt.go budget count m).1 = (runToHalt.go budget count m').1 ∧
        (runToHalt.go budget count m).2.Twins (runToHalt.go budget count m').2 := by
    induction budget generalizing m m' with
    | zero => exact fun count => ⟨rfl, h⟩
    | succ budget ih =>
      intro count
      have ⟨report, next⟩ := h.tick
      rw [runToHalt.go, runToHalt.go]
      dsimp only
      rw [← report]
      split
      · exact ⟨rfl, next⟩
      · exact ih next (count + 1)
  exact go 1

theorem advance (h : m.Twins m') (dt : Float) :
    (m.advance dt).1 = (m'.advance dt).1 ∧ (m.advance dt).2.Twins (m'.advance dt).2 := by
  let Related (s : Datapath arch.toCircuit δ × Nat)
      (s' : Datapath arch.toCircuit δ' × Nat) : Prop :=
    s.1.Twins s'.1 ∧ s'.2 = s.2
  have step : ∀ s s', Related s s' → (Machine.advance.clockTick s).1 = (advance.clockTick s').1 ∧
      Related (Machine.advance.clockTick s).2 (advance.clockTick s').2 := by
    intro s s' ⟨hd, hticks⟩
    have ⟨report, next⟩ := hd.cycle arch.sequencer
    exact ⟨congrArg CycleReport.halted report, next, congrArg (· + 1) hticks⟩
  have start : Related (m.datapath, m.ticks) (m'.datapath, m'.ticks) := ⟨h.datapath, h.ticks⟩
  have ⟨ticked, clock, datapath, ticks⟩ := Clock.advance_rel step m.clock dt start
  unfold Machine.advance
  rw [h.clock]
  exact ⟨ticked, datapath, clock.symm, ticks⟩

theorem replaceDatapath (h : m.Twins m') {outcome : Except RequestFault (Datapath arch.toCircuit δ)}
    {outcome' : Except RequestFault (Datapath arch.toCircuit δ')}
    (same : Datapath.TwinOutcomes outcome outcome') :
    Answer.ofExcept outcome = Answer.ofExcept outcome' ∧
      (m.replaceDatapath outcome).Twins (m'.replaceDatapath outcome') := by
  cases same with
  | refused fault => exact ⟨rfl, h⟩
  | changed hd => exact ⟨rfl, hd, h.clock, h.ticks⟩

theorem perform (h : m.Twins m') (request : Request) :
    m.answer request = m'.answer request ∧
      (m.perform request.operation).Twins (m'.perform request.operation) := by
  cases request with
  | drive call =>
    cases call with
    | tick => exact ⟨congrArg Answer.report h.tick.1, h.tick.2⟩
    | advance dt => exact ⟨congrArg Answer.ticked (h.advance dt).1, (h.advance dt).2⟩
    | finishInstruction budget =>
      have ⟨count, next⟩ := h.finishInstruction budget
      exact ⟨congrArg Answer.count count, next⟩
    | runToHalt budget =>
      have ⟨result, next⟩ := h.runToHalt budget
      exact ⟨congrArg Answer.outcome result, next⟩
    | start => exact ⟨rfl, h.datapath, congrArg Clock.start h.clock, h.ticks⟩
    | stop => exact ⟨rfl, h.datapath, congrArg Clock.stop h.clock, h.ticks⟩
  | writeCell address value => exact h.replaceDatapath (h.datapath.writeCell address value)
  | load image =>
    have ⟨answer, next⟩ := h.replaceDatapath (h.datapath.load image)
    rw [Machine.answer, Machine.answer, ofExcept_load, ofExcept_load]
    exact ⟨answer, next⟩

theorem serve (h : m.Twins m') (requests : List Request) :
    m.answers requests = m'.answers requests ∧ (m.serve requests).Twins (m'.serve requests) := by
  induction requests generalizing m m' with
  | nil => exact ⟨rfl, h⟩
  | cons request rest ih =>
    have ⟨answer, next⟩ := h.perform request
    have ⟨answers, last⟩ := ih next
    exact ⟨congrArg₂ List.cons answer answers, last⟩

end Twins

end Machine

end BusMachine
