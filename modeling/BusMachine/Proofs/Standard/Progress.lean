import BusMachine.Proofs.Assembly.Loading
import BusMachine.Proofs.Machine.Drive
import BusMachine.Proofs.Standard.Refinement

/-!
The standard machine stays within its microprograms: whatever is asked of it, short of asserting
lines by hand, its step counter points to a step of the current instruction, and it counts up to the
step that loads the next one.
-/

namespace BusMachine

/-- A request that meddles with the lines of a cycle. -/
def Operation.touchesLines {δ : Type} : Operation δ → Bool
  | .signal _ _ | .settle => true
  | _ => false

/-- A state that requests lead to from a new machine without meddling with lines. -/
inductive Machine.Reachable {arch : Architecture} {δ : Type} [Device δ] : Machine arch δ → Prop
  | new : Reachable (.new arch)
  | perform {m : Machine arch δ} (hm : Reachable m) {operation : Operation δ}
      (h : operation.touchesLines = false) : Reachable (m.perform operation)
  | compile {m : Machine arch δ} (hm : Reachable m) (source : String) (strict : Bool) :
      Reachable (Assembly.compile m source strict).2

theorem Machine.datapath_perform_cycle {arch : Architecture} {δ : Type} [Device δ]
    (m : Machine arch δ) : (m.perform .cycle).datapath = (arch.sequencer.cycle m.datapath).2 :=
  rfl

theorem Assembly.compile_eq_self_or_load {arch : Architecture} {δ : Type} [Device δ]
    (m : Machine arch δ) (source : String) (strict : Bool) :
    (compile m source strict).2 = m ∨
      ∃ image, (compile m source strict).2 = m.perform (.load image) := by
  unfold compile loadSource
  cases Image.ofSource (.ofArchitecture arch strict) arch.memorySize source with
  | error fault => exact .inl rfl
  | ok image =>
    simp only [bind, Except.bind]
    unfold Machine.load
    cases hload : m.datapath.load image.words with
    | error fault => exact .inl rfl
    | ok d =>
      refine .inr ⟨image.words, ?_⟩
      have loaded : m.perform (.load image.words) = m.replaceDatapath (.ok d) :=
        congrArg m.replaceDatapath hload
      rw [loaded]
      rfl

namespace Standard

open Datapath

def meaningOf? (opcode : Word) : Option Meaning :=
  (instructionSet.decode? opcode).bind fun i => meanings.lookup i.name

theorem decode?_eq_some_iff {opcode : Word} {i : Instruction} :
    instructionSet.decode? opcode = some i ↔ i ∈ standardInstructions ∧ i.opcode = opcode := by
  have found : ∀ i ∈ standardInstructions, instructionSet.decode? i.opcode = some i := by
    decide +kernel
  have own : ∀ entry ∈ instructionSet.table.entries,
      entry.2 ∈ standardInstructions ∧ entry.2.opcode = entry.1 := by
    decide +kernel
  constructor
  · intro h
    exact own _ (SparseTable.get?_eq_some_iff.mp h)
  · rintro ⟨hi, rfl⟩
    exact found i hi

theorem meaningOf?_opcode {i : Instruction} (hi : i ∈ standardInstructions) :
    meaningOf? i.opcode = meanings.lookup i.name := by
  unfold meaningOf?
  rw [decode?_eq_some_iff.mpr ⟨hi, rfl⟩, Option.bind_some]

theorem exists_of_meaningOf? {opcode : Word} {meaning : Meaning}
    (h : meaningOf? opcode = some meaning) :
    ∃ i ∈ standardInstructions, i.opcode = opcode ∧ CarriesOut i meaning := by
  obtain ⟨i, hdecode, hlookup⟩ := Option.bind_eq_some_iff.mp h
  have ⟨hi, hopcode⟩ := decode?_eq_some_iff.mp hdecode
  have ⟨other, carried⟩ := exists_carriesOut hi
  have hsame := carried.meaning_eq
  rw [hlookup] at hsame
  cases hsame
  exact ⟨i, hi, hopcode, carried⟩

theorem actions_of_meaningOf?_none {opcode : Word} (h : meaningOf? opcode = none) (step : Word)
    (flags : Flags) : sequencer.actions opcode step flags = [] := by
  apply Sequencer.actions_eq_nil
  cases hselect : sequencer.select? opcode flags with
  | none => rfl
  | some routine =>
    obtain ⟨named, -, i, hi, rfl, -, -⟩ := Sequencer.select?_resolves ofMicrocode_eq hselect
    have member := mem_standardInstructions i (InstructionSet.named?_mem hi)
    have ⟨meaning, carried⟩ := exists_carriesOut member
    rw [meaningOf?_opcode member, carried.meaning_eq] at h
    cases h

theorem length_steps (meaning : Meaning) (flags : Flags) :
    (meaning.steps flags).length = (meaning.transfers flags).length + 1 :=
  List.length_append

theorem length_steps_congr {meaning : Meaning} {flags flags' : Flags}
    (h : meaning.transfers flags' = meaning.transfers flags) :
    (meaning.steps flags').length = (meaning.steps flags).length := by
  rw [length_steps, length_steps, h]

theorem length_steps_le (meaning : Meaning) (flags : Flags) :
    (meaning.steps flags).length ≤ 11 := by
  cases meaning with
  | branch condition =>
    unfold Meaning.steps Meaning.transfers
    dsimp only
    split <;> decide
  | _ => exact Nat.le_of_ble_eq_true rfl

theorem getLast?_transfers (meaning : Meaning) (flags : Flags) :
    (meaning.transfers flags).getLast? = some { source := .pc, target := .address } := by
  cases meaning with
  | branch condition =>
    unfold Meaning.transfers
    dsimp only
    split <;> rfl
  | _ => rfl

theorem transfers_perform {size : Nat} {δ : Type} [Device δ] {meaning : Meaning}
    {s : State size δ} {t : Transfer} (ht : t ∈ meaning.transfers s.flags) (wordSize : Nat) :
    meaning.transfers (t.perform wordSize s).flags = meaning.transfers s.flags := by
  cases transfers_stable meaning s.flags with
  | inl hkeep => rw [Transfer.perform_flags (hkeep t ht)]
  | inr hsame => exact hsame _

theorem perform_loadInstruction {size : Nat} {δ : Type} [Device δ] {wordSize : Nat}
    {s : State size δ} (h : s.address = s.pc) :
    loadInstruction.perform wordSize s = s.fetch := by
  show { s with instruction := s.word s.address, tick := 0 } = s.fetch
  rw [h]
  unfold State.fetch
  rw [← h]

/-- The step counter points to a step of the current instruction, and `pc` is addressed when the
first step is due and when the last one is. An opcode without steps leaves it addressed. -/
structure State.OnTrack {size : Nat} {δ : Type} (s : State size δ) : Prop where
  step : ∀ meaning, meaningOf? s.instruction = some meaning →
    ∃ k : Nat, s.tick = k ∧ k < (meaning.steps s.flags).length ∧
      (k + 1 = (meaning.steps s.flags).length → s.address = s.pc)
  start : s.tick = 0 → s.address = s.pc
  unknown : meaningOf? s.instruction = none → s.address = s.pc

theorem State.OnTrack.of_tick_eq_zero {size : Nat} {δ : Type} {s : State size δ}
    (htick : s.tick = 0) (haddress : s.address = s.pc) : s.OnTrack where
  step meaning _ := by
    rw [length_steps]
    exact ⟨0, htick, Nat.succ_pos _, fun _ => haddress⟩
  start _ := haddress
  unknown _ := haddress

theorem State.onTrack_fetch {size : Nat} {δ : Type} (s : State size δ) : s.fetch.OnTrack :=
  .of_tick_eq_zero rfl rfl

variable {params : Parameters} {valid : params.Valid} {δ : Type} [Device δ]
  {d : Datapath (circuit params valid) δ}

theorem cycle_step (h : d.Sound) {meaning : Meaning}
    (hm : meaningOf? (State.ofDatapath d).instruction = some meaning) {k : Nat}
    (hk : (State.ofDatapath d).tick = k) {t : Transfer}
    (ht : (meaning.steps (State.ofDatapath d).flags)[k]? = some t) :
    (sequencer.cycle d).1.halted = t.halt ∧
      State.ofDatapath (sequencer.cycle d).2 = t.perform params.wordSize (State.ofDatapath d) := by
  have ⟨i, _, hopcode, carried⟩ := exists_of_meaningOf? hm
  have asserted := carried.asserts_eq d.flags k t ht
  rw [hopcode, ← hk] at asserted
  have ⟨hreport, hnext⟩ := cycle_transfer h asserted
  exact ⟨congrArg CycleReport.halted hreport, hnext⟩

theorem cycle_unknown (h : d.Sound) (hm : meaningOf? (State.ofDatapath d).instruction = none) :
    (sequencer.cycle d).1.halted = false ∧
      State.ofDatapath (sequencer.cycle d).2 =
        ({} : Transfer).perform params.wordSize (State.ofDatapath d) := by
  have idle : asserts [] = ({} : Transfer).asserted := by decide
  have hopcode : meaningOf? d.values[instructionSlot] = none := hm
  have asserted : asserts (sequencer.actions d.values[instructionSlot] d.values[tickSlot] d.flags) =
      ({} : Transfer).asserted := by
    rw [actions_of_meaningOf?_none hopcode, idle]
  obtain ⟨hreport, hnext⟩ := cycle_transfer h asserted
  exact ⟨congrArg CycleReport.halted hreport, hnext⟩

theorem sound_cycles (h : d.Sound) (count : Nat) : (sequencer.cycles count d).Sound := by
  induction count with
  | zero => exact h
  | succ count ih =>
    rw [Sequencer.cycles_succ]
    exact (steps_cycle (c := circuit params valid) ofMicrocode_eq _).sound ih

theorem exists_inner_step {meaning : Meaning} {flags : Flags} {k : Nat}
    (hk : k + 1 < (meaning.steps flags).length) :
    ∃ t ∈ meaning.transfers flags, (meaning.steps flags)[k]? = some t ∧
      (meaning.transfers flags)[k]? = some t := by
  rw [length_steps] at hk
  have hlt : k < (meaning.transfers flags).length := by omega
  refine ⟨_, List.getElem_mem hlt, ?_, List.getElem?_eq_getElem hlt⟩
  unfold Meaning.steps
  rw [List.getElem?_append_left hlt, List.getElem?_eq_getElem hlt]

theorem getElem?_last_step {meaning : Meaning} {flags : Flags} {k : Nat}
    (hk : k + 1 = (meaning.steps flags).length) :
    (meaning.steps flags)[k]? = some loadInstruction := by
  rw [length_steps] at hk
  obtain rfl : k = (meaning.transfers flags).length := by omega
  unfold Meaning.steps
  rw [List.getElem?_append_right (Nat.le_refl _), Nat.sub_self]
  rfl

theorem cycle_inner (hsize : 46 ≤ params.wordSize) (h : d.Sound) {meaning : Meaning}
    (hm : meaningOf? (State.ofDatapath d).instruction = some meaning) {k : Nat}
    (hk : (State.ofDatapath d).tick = k)
    (hinner : k + 1 < (meaning.steps (State.ofDatapath d).flags).length) :
    (State.ofDatapath (sequencer.cycle d).2).tick = k + 1 ∧
      meaningOf? (State.ofDatapath (sequencer.cycle d).2).instruction = some meaning ∧
      meaning.transfers (State.ofDatapath (sequencer.cycle d).2).flags =
        meaning.transfers (State.ofDatapath d).flags := by
  have ⟨t, hmem, hstep, _⟩ := exists_inner_step hinner
  have ⟨hrestart, htarget⟩ := transfers_inner meaning _ t hmem
  have hbound := length_steps_le meaning (State.ofDatapath d).flags
  rw [(cycle_step h hm hk hstep).2, Transfer.perform_tick hrestart, hk,
    Transfer.perform_instruction htarget]
  exact ⟨Nat.mod_eq_of_lt (by omega), hm, transfers_perform hmem _⟩

theorem cycle_last (h : d.Sound) {meaning : Meaning}
    (hm : meaningOf? (State.ofDatapath d).instruction = some meaning) {k : Nat}
    (hk : (State.ofDatapath d).tick = k)
    (hlast : k + 1 = (meaning.steps (State.ofDatapath d).flags).length)
    (haddress : (State.ofDatapath d).address = (State.ofDatapath d).pc) :
    State.ofDatapath (sequencer.cycle d).2 = (State.ofDatapath d).fetch := by
  rw [(cycle_step h hm hk (getElem?_last_step hlast)).2]
  exact perform_loadInstruction haddress

theorem cycle_addresses (h : d.Sound) {meaning : Meaning}
    (hm : meaningOf? (State.ofDatapath d).instruction = some meaning) {k : Nat}
    (hk : (State.ofDatapath d).tick = k)
    (hnext : k + 1 + 1 = (meaning.steps (State.ofDatapath d).flags).length) :
    (State.ofDatapath (sequencer.cycle d).2).address =
      (State.ofDatapath (sequencer.cycle d).2).pc := by
  have ⟨t, _, hstep, hget⟩ := exists_inner_step (Nat.lt_of_lt_of_eq (Nat.lt_succ_self _) hnext)
  have hfinal := getLast?_transfers meaning (State.ofDatapath d).flags
  rw [length_steps] at hnext
  obtain rfl : k = (meaning.transfers (State.ofDatapath d).flags).length - 1 := by omega
  rw [List.getLast?_eq_getElem?, hget] at hfinal
  cases hfinal
  rw [(cycle_step h hm hk hstep).2]
  rfl

theorem onTrack_cycle (hsize : 46 ≤ params.wordSize) (h : d.Sound)
    (ht : (State.ofDatapath d).OnTrack) : (State.ofDatapath (sequencer.cycle d).2).OnTrack := by
  cases hm : meaningOf? (State.ofDatapath d).instruction with
  | none =>
    have haddress := ht.unknown hm
    rw [(cycle_unknown h hm).2]
    constructor
    · intro meaning hmeaning
      cases hm.symm.trans hmeaning
    · exact fun _ => haddress
    · exact fun _ => haddress
  | some meaning =>
    have ⟨k, hk, hlt, haddress⟩ := ht.step meaning hm
    obtain hinner | hlast := Nat.lt_or_eq_of_le (Nat.succ_le_of_lt hlt)
    · have ⟨htick, hmeaning, htransfers⟩ := cycle_inner hsize h hm hk hinner
      constructor
      · intro other hother
        cases hmeaning.symm.trans hother
        rw [length_steps_congr htransfers]
        exact ⟨k + 1, htick, hinner, fun hnext => cycle_addresses h hm hk hnext⟩
      · intro hzero
        cases htick.symm.trans hzero
      · intro hnone
        cases hmeaning.symm.trans hnone
    · rw [cycle_last h hm hk hlast (haddress hlast)]
      exact State.onTrack_fetch _

theorem onTrack_cycles (hsize : 46 ≤ params.wordSize) (h : d.Sound)
    (ht : (State.ofDatapath d).OnTrack) (count : Nat) :
    (State.ofDatapath (sequencer.cycles count d)).OnTrack := by
  induction count with
  | zero => exact ht
  | succ count ih =>
    rw [Sequencer.cycles_succ]
    exact onTrack_cycle hsize (sound_cycles h count) ih

theorem cycles_inner (hsize : 46 ≤ params.wordSize) (h : d.Sound) {meaning : Meaning}
    (hm : meaningOf? (State.ofDatapath d).instruction = some meaning) {k : Nat}
    (hk : (State.ofDatapath d).tick = k) {count : Nat}
    (hcount : k + count < (meaning.steps (State.ofDatapath d).flags).length) :
    (State.ofDatapath (sequencer.cycles count d)).tick = k + count ∧
      meaningOf? (State.ofDatapath (sequencer.cycles count d)).instruction = some meaning ∧
      meaning.transfers (State.ofDatapath (sequencer.cycles count d)).flags =
        meaning.transfers (State.ofDatapath d).flags := by
  induction count with
  | zero =>
    rw [Sequencer.cycles_zero]
    exact ⟨hk, hm, rfl⟩
  | succ count ih =>
    have ⟨htick, hmeaning, htransfers⟩ := ih (by omega)
    have hinner : k + count + 1 <
        (meaning.steps (State.ofDatapath (sequencer.cycles count d)).flags).length := by
      rw [length_steps_congr htransfers]
      exact hcount
    have ⟨htick', hmeaning', htransfers'⟩ :=
      cycle_inner hsize (sound_cycles h count) hmeaning htick hinner
    rw [Sequencer.cycles_succ]
    exact ⟨htick', hmeaning', htransfers'.trans htransfers⟩

omit [Device δ] in
theorem onTrack_of_values {d' : Datapath (circuit params valid) δ} (hvalues : d'.values = d.values)
    (hflags : d'.flags = d.flags) (ht : (State.ofDatapath d).OnTrack) :
    (State.ofDatapath d').OnTrack := by
  have same : State.ofDatapath d' =
      { State.ofDatapath d with memory := d'.memory, ports := d'.ports } := by
    rw [ofDatapath_eq, ofDatapath_eq, hvalues, hflags]
  rw [same]
  exact ⟨ht.step, ht.start, ht.unknown⟩

omit [Device δ] in
theorem ofDatapath_of_zero (hvalues : d.values = .replicate _ 0) :
    (State.ofDatapath d).tick = 0 ∧ (State.ofDatapath d).instruction = 0 ∧
      (State.ofDatapath d).pc = 0 ∧ (State.ofDatapath d).address = 0 := by
  simp [ofDatapath_eq, hvalues]

omit [Device δ] in
theorem onTrack_of_zero (hvalues : d.values = .replicate _ 0) : (State.ofDatapath d).OnTrack := by
  have ⟨htick, _, hpc, haddress⟩ := ofDatapath_of_zero hvalues
  exact .of_tick_eq_zero htick (haddress.trans hpc.symm)

variable {m : Machine (architecture params valid) δ}

theorem onTrack_of_ran (hsize : 46 ≤ params.wordSize) (h : m.datapath.Sound)
    (ht : (State.ofDatapath m.datapath).OnTrack) {m' : Machine (architecture params valid) δ}
    {count : Nat} (ran : m.Ran m' count) : (State.ofDatapath m'.datapath).OnTrack := by
  rw [ran.datapath_eq]
  exact onTrack_cycles hsize h ht count

omit [Device δ] in
theorem onTrack_replaceDatapath (ht : (State.ofDatapath m.datapath).OnTrack)
    {outcome : Except RequestFault (Datapath (circuit params valid) δ)}
    (h : ∀ d, outcome = .ok d → d.values = m.datapath.values ∧ d.flags = m.datapath.flags) :
    (State.ofDatapath (m.replaceDatapath outcome).datapath).OnTrack := by
  cases outcome with
  | error fault => exact ht
  | ok d => exact onTrack_of_values (h d rfl).1 (h d rfl).2 ht

theorem onTrack_perform (hsize : 46 ≤ params.wordSize) (h : m.datapath.Sound)
    (ht : (State.ofDatapath m.datapath).OnTrack) {operation : Operation δ}
    (hlines : operation.touchesLines = false) :
    (State.ofDatapath (m.perform operation).datapath).OnTrack := by
  have driven : ∀ call : Call, (State.ofDatapath (m.perform call.operation).datapath).OnTrack :=
    fun call => onTrack_of_ran hsize h ht (m.ran_call call)
  have kept : ∀ ports, (State.ofDatapath { m.datapath with ports }).OnTrack :=
    fun ports => onTrack_of_values (d := m.datapath) rfl rfl ht
  cases operation with
  | signal component signal => cases hlines
  | settle => cases hlines
  | clearLines => exact onTrack_of_values (d := m.datapath) rfl rfl ht
  | writeCell address value =>
    apply onTrack_replaceDatapath ht
    intro d hd
    unfold writeCell at hd
    split at hd
    · cases hd
      exact ⟨rfl, rfl⟩
    · cases hd
  | load image =>
    apply onTrack_replaceDatapath ht
    intro d hd
    unfold load at hd
    split at hd
    · cases hd
      exact ⟨rfl, rfl⟩
    · cases hd
  | resetDatapath => exact onTrack_of_zero rfl
  | bind port device => exact kept _
  | unbind port => exact kept _
  | changePorts change => exact kept _
  | cycle =>
    rw [Machine.datapath_perform_cycle]
    exact onTrack_cycle hsize h ht
  | tick => exact driven .tick
  | advance dt => exact driven (.advance dt)
  | finishInstruction budget => exact driven (.finishInstruction budget)
  | runToHalt budget => exact driven (.runToHalt budget)
  | start => exact driven .start
  | stop => exact driven .stop
  | reset => exact onTrack_of_zero rfl

theorem onTrack_of_reachable (hsize : 46 ≤ params.wordSize) (hm : m.Reachable) :
    m.datapath.Sound ∧ (State.ofDatapath m.datapath).OnTrack := by
  have performed : ∀ (m : Machine (architecture params valid) δ) (operation : Operation δ),
      operation.touchesLines = false →
        m.datapath.Sound ∧ (State.ofDatapath m.datapath).OnTrack →
          (m.perform operation).datapath.Sound ∧
            (State.ofDatapath (m.perform operation).datapath).OnTrack :=
    fun m operation hlines h => ⟨(m.steps_perform ofMicrocode_eq operation).sound h.1,
      onTrack_perform hsize h.1 h.2 hlines⟩
  induction hm with
  | new => exact ⟨sound_initial, onTrack_of_zero rfl⟩
  | perform _ hlines ih => exact performed _ _ hlines ih
  | compile _ source strict ih =>
    obtain same | ⟨image, loaded⟩ := Assembly.compile_eq_self_or_load (δ := δ) _ source strict
    · rw [same]
      exact ih
    · rw [loaded]
      exact performed _ _ rfl ih

/-- A machine whose microprograms do not run out. -/
structure WithinRoutine {arch : Architecture} (m : Machine arch δ) : Prop where
  /-- The routine of a standard instruction has the step that is due. -/
  step_lt : ∀ i ∈ standardInstructions, (State.ofDatapath m.datapath).instruction = i.opcode →
    ∃ count, arch.sequencer.stepCount? i.opcode m.datapath.flags = some count ∧ m.step < count
  addressed : m.step = 0 → (State.ofDatapath m.datapath).address = (State.ofDatapath m.datapath).pc
  /-- Where a tick replaces the instruction, the first step is due. -/
  replaced : (State.ofDatapath m.tick.2.datapath).instruction ≠
    (State.ofDatapath m.datapath).instruction → m.tick.2.step = 0
  /-- Eleven ticks are enough for what is left of a standard instruction, unless it halts before:
  the last one of them fetches the next instruction. -/
  finished : ∀ i ∈ standardInstructions, (State.ofDatapath m.datapath).instruction = i.opcode →
    ∀ budget, 11 ≤ budget → ∃ last < 11, (m.finishInstruction budget).1 = last + 1 ∧
      (arch.sequencer.haltsAt m.datapath last = true ∨
        State.ofDatapath (m.finishInstruction budget).2.datapath =
          (State.ofDatapath (arch.sequencer.cycles last m.datapath)).fetch)

omit [Device δ] in
theorem meaningOf?_of_instruction {i : Instruction} (hi : i ∈ standardInstructions)
    (hinstruction : (State.ofDatapath d).instruction = i.opcode) :
    ∃ meaning, CarriesOut i meaning ∧
      meaningOf? (State.ofDatapath d).instruction = some meaning := by
  have ⟨meaning, carried⟩ := exists_carriesOut hi
  refine ⟨meaning, carried, ?_⟩
  rw [hinstruction, meaningOf?_opcode hi, carried.meaning_eq]

omit [Device δ] in
theorem values_tick (d : Datapath (circuit params valid) δ) :
    d.values[sequencer.tick] = (State.ofDatapath d).tick := by
  rw [sequencer_tick]
  rfl

omit [Device δ] in
theorem step_eq_tick (m : Machine (architecture params valid) δ) :
    m.step = (State.ofDatapath m.datapath).tick :=
  values_tick m.datapath

theorem cycles_fetch (hsize : 46 ≤ params.wordSize) (h : d.Sound)
    (ht : (State.ofDatapath d).OnTrack) {meaning : Meaning}
    (hm : meaningOf? (State.ofDatapath d).instruction = some meaning) {k rest : Nat}
    (hk : (State.ofDatapath d).tick = k)
    (hrest : k + rest + 1 = (meaning.steps (State.ofDatapath d).flags).length) :
    State.ofDatapath (sequencer.cycles (rest + 1) d) =
      (State.ofDatapath (sequencer.cycles rest d)).fetch := by
  have ⟨htick, hmeaning, htransfers⟩ :=
    cycles_inner hsize h hm hk (Nat.lt_of_succ_le (Nat.le_of_eq hrest))
  have hlast : k + rest + 1 =
      (meaning.steps (State.ofDatapath (sequencer.cycles rest d)).flags).length := by
    rw [length_steps_congr htransfers]
    exact hrest
  have ⟨k', hk', _, haddress⟩ := (onTrack_cycles hsize h ht rest).step meaning hmeaning
  obtain rfl : k' = k + rest := hk'.symm.trans htick
  rw [Sequencer.cycles_succ]
  exact cycle_last (sound_cycles h rest) hmeaning htick hlast (haddress hlast)

theorem tick_eq_zero_of_replaced (h : d.Sound)
    (ht : (State.ofDatapath d).OnTrack)
    (hreplaced : (State.ofDatapath (sequencer.cycle d).2).instruction ≠
      (State.ofDatapath d).instruction) :
    (State.ofDatapath (sequencer.cycle d).2).tick = 0 := by
  cases hm : meaningOf? (State.ofDatapath d).instruction with
  | none =>
    rw [(cycle_unknown h hm).2] at hreplaced
    exact absurd rfl hreplaced
  | some meaning =>
    have ⟨k, hk, hlt, haddress⟩ := ht.step meaning hm
    obtain hinner | hlast := Nat.lt_or_eq_of_le (Nat.succ_le_of_lt hlt)
    · have ⟨t, hmem, hstep, _⟩ := exists_inner_step hinner
      have htarget := (transfers_inner meaning _ t hmem).2
      rw [(cycle_step h hm hk hstep).2, Transfer.perform_instruction htarget] at hreplaced
      exact absurd rfl hreplaced
    · rw [cycle_last h hm hk hlast (haddress hlast)]
      rfl

theorem finishInstruction_fetches (hsize : 46 ≤ params.wordSize) (h : m.datapath.Sound)
    (ht : (State.ofDatapath m.datapath).OnTrack) {meaning : Meaning}
    (hm : meaningOf? (State.ofDatapath m.datapath).instruction = some meaning) {budget : Nat}
    (hbudget : 11 ≤ budget) :
    ∃ last < 11, (m.finishInstruction budget).1 = last + 1 ∧
      (sequencer.haltsAt m.datapath last = true ∨
        State.ofDatapath (m.finishInstruction budget).2.datapath =
          (State.ofDatapath (sequencer.cycles last m.datapath)).fetch) := by
  have ⟨k, hk, hlt, _⟩ := ht.step meaning hm
  have hlength := length_steps_le meaning (State.ofDatapath m.datapath).flags
  obtain ⟨rest, hrest⟩ := Nat.exists_eq_add_of_lt hlt
  have fetched := cycles_fetch hsize h ht hm hk hrest.symm
  have finished := m.finishInstruction_finished budget
  generalize (m.finishInstruction budget).1 = count at finished ⊢
  generalize (m.finishInstruction budget).2 = m' at finished ⊢
  have hreached := finished.ran.datapath_eq
  have hzero : (sequencer.cycles (rest + 1) m.datapath).values[sequencer.tick] = 0 :=
    (values_tick _).trans (congrArg State.tick fetched)
  have hcount : count ≤ rest + 1 := Nat.le_of_not_lt fun hlong =>
    finished.inner (rest + 1) (Nat.succ_pos rest) hlong hzero
  obtain rfl | hshort : count = rest + 1 ∨ count < rest + 1 := by omega
  · refine ⟨rest, by omega, rfl, .inr ?_⟩
    rw [hreached]
    exact fetched
  · obtain hspent | ⟨hpos, hhalted | hstep⟩ := finished.ended
    · omega
    · refine ⟨count - 1, by omega, by omega, .inl hhalted⟩
    · -- before the last step is due, no step is the first one
      have hinner : k + count < (meaning.steps (State.ofDatapath m.datapath).flags).length := by
        rw [hrest]
        omega
      have ⟨htick, _⟩ := cycles_inner hsize h hm hk hinner
      rw [step_eq_tick, hreached] at hstep
      have hnone : k + count = 0 := htick.symm.trans hstep
      omega

theorem withinRoutine (hsize : 46 ≤ params.wordSize) (h : m.datapath.Sound)
    (ht : (State.ofDatapath m.datapath).OnTrack) : WithinRoutine m := by
  constructor
  · intro i hi hinstruction
    have ⟨meaning, carried, hm⟩ := meaningOf?_of_instruction hi hinstruction
    have ⟨k, hk, hlt, _⟩ := ht.step meaning hm
    refine ⟨_, carried.count_eq _, ?_⟩
    rw [step_eq_tick, hk]
    exact hlt
  · rw [step_eq_tick]
    exact ht.start
  · intro hreplaced
    rw [step_eq_tick]
    rw [Machine.datapath_tick] at hreplaced ⊢
    exact tick_eq_zero_of_replaced h ht hreplaced
  · intro i hi hinstruction budget hbudget
    have ⟨meaning, _, hm⟩ := meaningOf?_of_instruction hi hinstruction
    exact finishInstruction_fetches hsize h ht hm hbudget

/-- Whatever is asked of a standard machine, short of asserting lines by hand, its microprograms do
not run out. -/
theorem reachable_withinRoutine {arch : Architecture} (h : Architecture.standard params = .ok arch)
    {m : Machine arch δ} (hm : m.Reachable) : WithinRoutine m := by
  obtain ⟨valid, hsize, rfl⟩ := standard_ok_iff.mp h
  have ⟨sound, track⟩ := onTrack_of_reachable hsize hm
  exact withinRoutine hsize sound track

def edited : Machine defaultArchitecture QueueDevice :=
  (Machine.new _).perform (.writeCell 1 300)

theorem reachable_withinRoutine_edited :
    Architecture.standard {} = .ok defaultArchitecture ∧ edited.Reachable ∧
      ∃ last < 11, (edited.finishInstruction 20).1 = last + 1 := by
  have reachable : edited.Reachable := .perform .new rfl
  have within := reachable_withinRoutine standard_default reachable
  have member : (⟨"nop", 0, [], "does nothing"⟩ : Instruction) ∈ standardInstructions := by decide
  have ⟨last, hlast, hcount, _⟩ := within.finished _ member (by rfl) 20 (by decide)
  exact ⟨standard_default, reachable, last, hlast, hcount⟩

end Standard

end BusMachine
