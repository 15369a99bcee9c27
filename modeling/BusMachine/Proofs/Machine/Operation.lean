import BusMachine.Machine
import BusMachine.Proofs.Datapath.Soundness

/-!
Everything that can be asked of a machine from outside, one request after the other. Whatever is
asked, the datapath undergoes single changes only.
-/

namespace BusMachine

/-- One request to a machine or to its datapath. -/
inductive Operation (δ : Type) where
  | signal (component signal : String)
  | clearLines
  | settle
  | writeCell (address : Nat) (value : Word)
  | load (image : Array Word)
  | resetDatapath
  | bind (port : Word) (device : δ)
  | unbind (port : Word)
  | changePorts (change : Ports δ → Ports δ)
  | cycle
  | tick
  | advance (dt : Float)
  | finishInstruction (budget : Nat)
  | runToHalt (budget : Nat)
  | start
  | stop
  | reset

namespace Clock

variable {τ : Type} {σ : Type u} [Duration τ]

theorem catchUp_preserves {P : σ → Prop} {tick : σ → Bool × σ} (step : ∀ s, P s → P (tick s).2)
    (fuel : Nat) (k : Clock τ) {s : σ} (h : P s) : P (catchUp tick fuel k s).2 := by
  induction fuel generalizing k s with
  | zero => exact h
  | succ fuel ih =>
    unfold catchUp
    split
    · exact ih _ (step s h)
    · exact h

theorem advance_preserves {P : σ → Prop} {tick : σ → Bool × σ} (step : ∀ s, P s → P (tick s).2)
    (k : Clock τ) (dt : τ) {s : σ} (h : P s) : P (k.advance dt tick s).2.2 := by
  unfold advance
  split
  · exact catchUp_preserves step _ _ h
  · exact h

end Clock

namespace Datapath

variable {c : Circuit} {δ : Type}

theorem namedActions_supported {name signal : String} {actions : List (Action c.size)}
    (h : namedActions c name signal = .ok actions) : ∀ a ∈ actions, a.Supported c.wiring := by
  unfold namedActions at h
  dsimp only at h
  split at h
  · split at h
    · rename_i action haction
      cases h
      intro a ha
      rw [List.mem_singleton] at ha
      subst ha
      unfold machineAction? at haction
      split at haction
      · cases haction
        trivial
      · obtain ⟨value, -, rfl⟩ := Option.map_eq_some_iff.mp haction
        trivial
    · cases h
  · split at h
    · cases h
    · split at h
      · cases h
      · split at h
        · rename_i hlines
          cases h
          intro a ha
          obtain ⟨slot, hslot, rfl⟩ := List.mem_map.mp ha
          exact List.all_eq_true.mp hlines slot hslot
        · cases h

variable [Device δ]

theorem steps_assertNamed {d d' : Datapath c δ} {name signal : String}
    (h : d.assertNamed name signal = .ok d') : Steps d d' := by
  unfold assertNamed at h
  split at h
  · rename_i hactions
    cases h
    exact steps_assertAll (namedActions_supported hactions) d
  · cases h

end Datapath

namespace Machine

variable {arch : Architecture} {δ : Type}

/-- The datapath that a request leaves, which is the old one if the request was refused. -/
def replaceDatapath (m : Machine arch δ) :
    Except RequestFault (Datapath arch.toCircuit δ) → Machine arch δ
  | .ok datapath => { m with datapath }
  | .error _ => m

variable [Device δ]

def perform (m : Machine arch δ) : Operation δ → Machine arch δ
  | .signal component signal => m.replaceDatapath (m.datapath.assertNamed component signal)
  | .clearLines => { m with datapath := m.datapath.beginCycle }
  | .settle => { m with datapath := m.datapath.endCycle }
  | .writeCell address value => m.replaceDatapath (m.datapath.writeCell address value)
  | .load image => m.replaceDatapath (m.datapath.load image)
  | .resetDatapath => { m with datapath := m.datapath.reset }
  | .bind port device =>
    { m with datapath := { m.datapath with ports := m.datapath.ports.insert port device } }
  | .unbind port => { m with datapath := { m.datapath with ports := m.datapath.ports.erase port } }
  | .changePorts change =>
    { m with datapath := { m.datapath with ports := change m.datapath.ports } }
  | .cycle => { m with datapath := (arch.sequencer.cycle m.datapath).2 }
  | .tick => m.tick.2
  | .advance dt => (m.advance dt).2
  | .finishInstruction budget => (m.finishInstruction budget).2
  | .runToHalt budget => (m.runToHalt budget).2
  | .start => m.start
  | .stop => m.stop
  | .reset => m.reset

def run (arch : Architecture) (operations : List (Operation δ)) : Machine arch δ :=
  operations.foldl perform (new arch)

variable {set : InstructionSet} {microcode : List NamedRoutine}

section Ticks

variable (hq : Sequencer.ofMicrocode arch.wiring set microcode = .ok arch.sequencer)
include hq

theorem steps_tick (m : Machine arch δ) : Datapath.Steps m.datapath m.tick.2.datapath :=
  Datapath.steps_cycle hq m.datapath

theorem steps_finishInstruction (budget done : Nat) (m : Machine arch δ) :
    Datapath.Steps m.datapath (finishInstruction.go budget done m).2.datapath := by
  induction budget generalizing done m with
  | zero => exact .refl
  | succ budget ih =>
    have ticked := steps_tick hq m
    rw [finishInstruction.go]
    dsimp only
    split
    · exact ticked
    · exact ticked.trans (ih _ _)

theorem steps_runToHalt (budget count : Nat) (m : Machine arch δ) :
    Datapath.Steps m.datapath (runToHalt.go budget count m).2.datapath := by
  induction budget generalizing count m with
  | zero => exact .refl
  | succ budget ih =>
    have ticked := steps_tick hq m
    rw [runToHalt.go]
    dsimp only
    split
    · exact ticked
    · exact ticked.trans (ih _ _)

theorem steps_advance (m : Machine arch δ) (dt : Float) :
    Datapath.Steps m.datapath (m.advance dt).2.datapath := by
  have step : ∀ s : Datapath arch.toCircuit δ × Nat, Datapath.Steps m.datapath s.1 →
      Datapath.Steps m.datapath (advance.clockTick s).2.1 :=
    fun s hs => hs.trans (Datapath.steps_cycle hq s.1)
  exact Clock.advance_preserves step m.clock dt .refl

theorem steps_perform (m : Machine arch δ) (operation : Operation δ) :
    Datapath.Steps m.datapath (m.perform operation).datapath := by
  have accepted : ∀ outcome : Except RequestFault (Datapath arch.toCircuit δ),
      (∀ d, outcome = .ok d → Datapath.Steps m.datapath d) →
        Datapath.Steps m.datapath (m.replaceDatapath outcome).datapath := by
    intro outcome h
    cases outcome with
    | ok d => exact h d rfl
    | error fault => exact .refl
  cases operation with
  | signal component signal => exact accepted _ fun d hd => Datapath.steps_assertNamed hd
  | clearLines => exact .single (.beginCycle _)
  | settle => exact Datapath.steps_endCycle _
  | writeCell address value => exact accepted _ fun d hd => .single (.writeCell hd)
  | load image => exact accepted _ fun d hd => .single (.load hd)
  | resetDatapath => exact .single (.reset _)
  | bind port device => exact .single (.bind _ _)
  | unbind port => exact .single (.bind _ _)
  | changePorts change => exact .single (.bind _ _)
  | cycle => exact Datapath.steps_cycle hq _
  | tick => exact steps_tick hq m
  | advance dt => exact steps_advance hq m dt
  | finishInstruction budget => exact steps_finishInstruction hq budget 0 m
  | runToHalt budget => exact steps_runToHalt hq budget 1 m
  | start => exact .refl
  | stop => exact .refl
  | reset => exact .single (.reset _)

theorem steps_foldl_perform (operations : List (Operation δ)) (m : Machine arch δ) :
    Datapath.Steps m.datapath (operations.foldl perform m).datapath := by
  induction operations generalizing m with
  | nil => exact .refl
  | cons operation rest ih => exact (steps_perform hq m operation).trans (ih _)

end Ticks

end Machine

end BusMachine
