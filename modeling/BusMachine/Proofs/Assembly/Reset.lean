import BusMachine.Proofs.Assembly.Loading
import BusMachine.Proofs.Machine.Twin

/-!
Machines that were reset. Assembling depends on nothing of a machine and changes nothing but its
memory, and a reset leaves nothing but memory and ports; so a machine that was used before and one
that is new come to the same state by the same program, and with ports that behave alike they go on
in the same way.
-/

namespace BusMachine

namespace Machine

variable {arch : Architecture} {δ δ' : Type}

def withMemory (m : Machine arch δ) (memory : Vector Word arch.memorySize) : Machine arch δ :=
  { m with datapath := { m.datapath with memory } }

def replacePorts (m : Machine arch δ) (ports : Ports δ') : Machine arch δ' where
  datapath := { m.datapath with ports }
  clock := m.clock
  ticks := m.ticks

theorem reset_eq (m : Machine arch δ) :
    m.reset = ((new arch : Machine arch δ).replacePorts m.datapath.ports).withMemory
      m.datapath.memory :=
  rfl

theorem twins_replacePorts [Device δ] [Device δ'] (m : Machine arch δ) {ports : Ports δ'}
    (h : m.datapath.ports.Alike ports) : m.Twins (m.replacePorts ports) where
  datapath := ⟨rfl, rfl, rfl, rfl, rfl, rfl, h⟩
  clock := rfl
  ticks := rfl

end Machine

namespace Assembly

variable {arch : Architecture} {δ : Type}

theorem compile_cases (arch : Architecture) (source : String) (strict : Bool) :
    (∃ fault, ∀ {δ : Type} (m : Machine arch δ), compile m source strict = (.error fault, m)) ∨
      ∃ annotations memory, ∀ {δ : Type} (m : Machine arch δ),
        compile m source strict = (.ok annotations, m.withMemory memory) := by
  cases hsource : Image.ofSource (.ofArchitecture arch strict) arch.memorySize source with
  | error fault =>
    refine .inl ⟨fault, fun m => ?_⟩
    simp [compile, loadSource, hsource, Bind.bind, Except.bind]
  | ok image =>
    by_cases hsize : image.words.size ≤ arch.memorySize
    · refine .inr ⟨image.annotations, .ofFn fun i => image.words.getD i 0 % arch.wordSize,
        fun m => ?_⟩
      simp [compile, loadSource, hsource, Bind.bind, Except.bind, Machine.load, Datapath.load,
        hsize, Machine.withMemory, Pure.pure, Except.pure]
    · let fault : RequestFault := .imageTooLarge image.words.size arch.memorySize
      refine .inl ⟨{ cause := .ofLoading fault }, fun m => ?_⟩
      simp [compile, loadSource, hsource, Bind.bind, Except.bind, Machine.load, Datapath.load,
        hsize, fault]
      rfl

/-- A machine that was reset is as good as a new one. For a text that compiles it does not matter
whether a machine is reset before or afterwards; the state is that of a new machine but for the
ports. So a new machine of the same architecture that was given ports of equal behaviour answers
every sequence of requests in the same way, and stays the same but for its ports. -/
theorem reset_is_new [Device δ] {m m' : Machine arch δ} {source : String} {strict : Bool}
    {annotations : Annotations} (h : compile m source strict = (.ok annotations, m')) :
    compile m.reset source strict = (.ok annotations, m'.reset) ∧
    compile (.new arch : Machine arch δ) source strict =
      (.ok annotations, m'.reset.replacePorts .empty) ∧
    ∀ (δ' : Type) [Device δ'] (ports : Ports δ'), m.datapath.ports.Alike ports →
      ∃ fresh, compile ((.new arch : Machine arch δ').replacePorts ports) source strict =
          (.ok annotations, fresh) ∧
        ∀ requests, m'.reset.answers requests = fresh.answers requests ∧
          (m'.reset.serve requests).Twins (fresh.serve requests) := by
  obtain ⟨fault, refused⟩ | ⟨others, memory, compiled⟩ := compile_cases arch source strict
  · rw [refused] at h
    cases h
  · rw [compiled] at h
    cases h
    have reset : (m.withMemory memory).reset =
        ((Machine.new arch : Machine arch δ).replacePorts m.datapath.ports).withMemory memory :=
      (m.withMemory memory).reset_eq
    refine ⟨compiled _, ?_, fun δ' _ ports alike => ⟨_, compiled _, fun requests => ?_⟩⟩
    · rw [compiled, reset]
      rfl
    · have twins := (m.withMemory memory).reset.twins_replacePorts alike
      rw [reset] at twins ⊢
      exact twins.serve requests

def usedMachine : Machine Standard.defaultArchitecture QueueDevice :=
  Machine.run _ [.bind 1 {}, .writeCell 0 45, .start, .tick, .tick, .tick, .tick, .advance 1]

theorem reset_is_new_used : ∃ annotations m',
    compile usedMachine "loa 'a hlt" true = (.ok annotations, m') ∧
      compile usedMachine.reset "loa 'a hlt" true = (.ok annotations, m'.reset) ∧
      ∃ fresh,
        compile ((Machine.new _ : Machine Standard.defaultArchitecture QueueDevice).replacePorts
          usedMachine.datapath.ports) "loa 'a hlt" true = (.ok annotations, fresh) ∧
        m'.reset.answers [.drive (.runToHalt 100)] = fresh.answers [.drive (.runToHalt 100)] := by
  have compiles : (compile usedMachine "loa 'a hlt" true).1.toOption.isSome = true := by
    decide +kernel
  have ⟨annotations, hannotations⟩ := Option.isSome_iff_exists.mp compiles
  have compiled : compile usedMachine "loa 'a hlt" true =
      (.ok annotations, (compile usedMachine "loa 'a hlt" true).2) :=
    Prod.ext (eq_ok_of_toOption hannotations) rfl
  have ⟨resets, _, behaves⟩ := reset_is_new compiled
  have ⟨fresh, hfresh, same⟩ := behaves QueueDevice _ (.refl _)
  exact ⟨annotations, _, compiled, resets, fresh, hfresh, (same _).1⟩

end Assembly

end BusMachine
