import BusMachine.Device.Queue
import BusMachine.Proofs.Listing.Rows
import BusMachine.Proofs.Standard.Alignment
import BusMachine.Proofs.Standard.Passage
import Mathlib.Data.List.Induction

/-!
What a machine runs of a memory and how the memory is listed: as long as instructions follow one
another in memory and leave it alone, they begin at the opcodes of the listing, and a machine that
comes to a plain value stays there.
-/

namespace BusMachine

def Listing.plain (instructions : InstructionSet) : Listing := { instructions }

namespace Standard

open Datapath

/-- An instruction that neither jumps nor writes memory. -/
def Plain (instructions : InstructionSet) {size : Nat} {δ : Type} (s : State size δ) : Prop :=
  ∃ i ∈ instructions.decode? s.instruction, i.name ∉ jumpNames ∧ i.name ∉ strayNames

instance (instructions : InstructionSet) {size : Nat} {δ : Type} (s : State size δ) :
    Decidable (Plain instructions s) :=
  inferInstanceAs (Decidable (∃ i ∈ instructions.decode? s.instruction, _))

section Next

variable {size : Nat} {δ : Type} [Device δ] {s : State size δ} {i : Instruction} {wordSize : Nat}

omit [Device δ] in
theorem Plain.exists_meaning (h : Plain instructionSet s)
    (hdecode : instructionSet.decode? s.instruction = some i) :
    ∃ meaning : Meaning, s.meaning? = some meaning ∧ meaning.strays = false ∧
      meaning.jumps = false ∧ meaning.length = i.length := by
  obtain ⟨_, hsame, hjump, hstray⟩ := h
  cases hdecode.symm.trans hsame
  have ⟨member, hopcode⟩ := decode?_eq_some_iff.mp hdecode
  obtain ⟨meaning, carried⟩ := exists_carriesOut member
  refine ⟨meaning, ?_, ?_, ?_, length_of_lookup i member _ carried.meaning_eq⟩
  · rw [State.meaning?, ← hopcode, meaningOf?_opcode member, carried.meaning_eq]
  · rw [strays_of_lookup i member _ carried.meaning_eq]
    simpa using hstray
  · rw [jumps_of_lookup i member _ carried.meaning_eq]
    simpa using hjump

theorem Plain.word_next (h : Plain instructionSet s) (address : Word) :
    (s.next wordSize).word address = s.word address := by
  obtain ⟨i, hdecode, _⟩ := id h
  obtain ⟨meaning, hmeaning, strays, -⟩ := h.exists_meaning hdecode
  rw [State.next_of_some hmeaning]
  exact word_perform strays address

theorem Plain.loaded_next (h : Plain instructionSet s) :
    (s.next wordSize).instruction = (s.next wordSize).word (s.next wordSize).pc := by
  obtain ⟨i, hdecode, _⟩ := id h
  obtain ⟨meaning, hmeaning, -⟩ := h.exists_meaning hdecode
  rw [State.next_of_some hmeaning]
  rfl

theorem Plain.pc_next (h : Plain instructionSet s)
    (hdecode : instructionSet.decode? s.instruction = some i) (hsize : 46 ≤ wordSize)
    (honward : s.pc < (s.next wordSize).pc) :
    (s.next wordSize).pc = s.pc + i.length ∧ s.pc + i.length < wordSize := by
  obtain ⟨meaning, hmeaning, strays, jumps, hlength⟩ := h.exists_meaning hdecode
  have short : i.length ≤ 46 := by
    have all : ∀ i ∈ standardInstructions, i.length ≤ 46 := by decide
    exact all i (decode?_eq_some_iff.mp hdecode).1
  have reached : (s.next wordSize).pc = (s.pc + i.length) % wordSize := by
    rw [State.next_of_some hmeaning, ← hlength]
    obtain ⟨-, hpc⟩ | ⟨hjumps, -⟩ := perform_pc wordSize s strays
    · exact hpc
    · cases jumps.symm.trans hjumps
  have inside : s.pc + i.length < wordSize := by
    by_contra hle
    have wrapped : (s.pc + i.length) % wordSize ≤ s.pc := by
      rw [Nat.mod_eq_sub_mod (Nat.le_of_not_lt hle)]
      exact Nat.le_trans (Nat.mod_le _ _) (by omega)
    rw [← reached] at wrapped
    exact absurd honward (Nat.not_lt_of_le wrapped)
  rw [Nat.mod_eq_of_lt inside] at reached
  exact ⟨reached, inside⟩

end Next

/-- A state that is to begin at a cell where no operand is expected, with `k` opcodes listed in
front of it. -/
structure Listed (l : Listing) (cells : List Word) (k : Nat) {size : Nat} {δ : Type}
    (s : State size δ) : Prop where
  word : ∀ address, s.word address = cells.getD address 0
  inside : s.pc < cells.length
  loaded : s.instruction = s.word s.pc
  expected : l.expectedAt cells.length cells s.pc = []
  position : l.opcodesBefore cells s.pc = k

section Listed

variable {l : Listing} {cells : List Word} {k : Nat} {size : Nat} {δ : Type} {s : State size δ}

theorem Listed.getElem? (h : Listed l cells k s) : cells[s.pc]? = some s.instruction := by
  rw [h.loaded, h.word, List.getD_eq_getElem?_getD, List.getElem?_eq_getElem h.inside,
    Option.getD_some]

theorem Listed.row (h : Listed (.plain instructionSet) cells k s) :
    ∃ row, ((Listing.plain instructionSet).rows cells)[s.pc]? = some row ∧ row.address = s.pc ∧
      row.value = s.instruction ∧
      match instructionSet.decode? s.instruction with
      | some i => row.meaning = .opcode i.name ∧
        ((Listing.plain instructionSet).opcodeRows cells)[k]? = some row
      | none => row.meaning = .value := by
  have row := Listing.getElem?_rows_of_none (l := .plain instructionSet) rfl h.getElem?
  refine ⟨_, row, rfl, rfl, ?_⟩
  rw [h.expected] at row ⊢
  have inside := h.inside
  cases hdecode : instructionSet.decode? s.instruction with
  | some i =>
    have meaning := Listing.meaning_of_decode? (l := .plain instructionSet) inside hdecode
    rw [meaning] at row ⊢
    have numbered := Listing.getElem?_opcodeRows row rfl
    rw [h.position] at numbered
    exact ⟨rfl, numbered⟩
  | none =>
    unfold Listing.meaning
    rw [if_neg (Nat.not_le_of_lt inside)]
    show (match instructionSet.decode? s.instruction with
      | some i => (CellMeaning.opcode i.name, i.operands)
      | none => (.value, [])).1 = .value
    rw [hdecode]

theorem Listed.next [Device δ] (h : Listed (.plain instructionSet) cells k s)
    (hplain : Plain instructionSet s) (hsize : 46 ≤ cells.length)
    (honward : s.pc < (s.next cells.length).pc) :
    Listed (.plain instructionSet) cells (k + 1) (s.next cells.length) := by
  obtain ⟨i, hdecode, _⟩ := id hplain
  have ⟨hpc, hend⟩ := hplain.pc_next hdecode hsize honward
  have ⟨expected, position⟩ := Listing.expectedAt_instruction (l := .plain instructionSet) rfl
    h.getElem? hdecode h.expected (Nat.le_of_lt hend)
  refine ⟨fun address => ?_, ?_, hplain.loaded_next, ?_, ?_⟩
  · rw [hplain.word_next, h.word]
  · rw [hpc]
    exact hend
  · rw [hpc, expected]
  · rw [hpc, position, h.position]

end Listed

section Segments

variable {params : Parameters} {valid : params.Valid} {δ : Type} [Device δ]
  {d d' : Datapath (circuit params valid) δ} {passages : List (Passage (circuit params valid) δ)}

theorem listed_segment (hsize : 46 ≤ params.wordSize) (h : d.beginCycle.Sound) {cells : List Word}
    (hcells : cells.length = params.wordSize)
    (hlisted : Listed (.plain instructionSet) cells 0 (State.ofDatapath d))
    (hsegment : sequencer.Segment d passages d')
    (hpassages : ∀ p ∈ passages, Plain instructionSet (State.ofDatapath p.before) ∧
      (State.ofDatapath p.before).pc < (State.ofDatapath p.after).pc) :
    Listed (.plain instructionSet) cells passages.length (State.ofDatapath d') := by
  induction passages using List.reverseRecOn generalizing d' with
  | nil =>
    cases hsegment
    exact hlisted
  | append_singleton passages p ih =>
    have ⟨hfirst, hlast, hnext⟩ := next_of_concat hsize h hsegment
    have ⟨hplain, honward⟩ := hpassages p (by simp)
    have listed := ih hfirst fun p hp => hpassages p (List.mem_append_left _ hp)
    rw [hnext, ← hcells] at honward
    rw [hlast, hnext, List.length_append, List.length_singleton, ← hcells]
    exact listed.next hplain (hcells ▸ hsize) honward

theorem pc_of_plain (hsize : 46 ≤ params.wordSize) (h : d.beginCycle.Sound)
    (hsegment : sequencer.Segment d passages d') {p : Passage (circuit params valid) δ}
    (hp : p ∈ passages) (hplain : Plain instructionSet (State.ofDatapath p.before))
    (honward : (State.ofDatapath p.before).pc < (State.ofDatapath p.after).pc) {i : Instruction}
    (hdecode : instructionSet.decode? (State.ofDatapath p.before).instruction = some i) :
    (State.ofDatapath p.after).pc = (State.ofDatapath p.before).pc + i.length := by
  rw [next_of_mem hsize h hsegment hp] at honward ⊢
  exact (hplain.pc_next hdecode hsize honward).1

omit [Device δ] in
theorem listed_of_zero (hvalues : d.values = .replicate _ 0)
    (hsize : 46 ≤ params.memorySize) (hfirst : d.memory.toList[0]? = some 0) :
    Listed (.plain instructionSet) d.memory.toList 0 (State.ofDatapath d) := by
  have ⟨_, hinstruction, hpc, _⟩ := ofDatapath_of_zero hvalues
  have word : ∀ address, (State.ofDatapath d).word address = d.memory.toList.getD address 0 := by
    intro address
    show d.memory.getD address 0 = d.memory.toList.getD address 0
    by_cases hlt : address < params.memorySize <;> simp [Vector.getD, hlt]
  refine ⟨word, ?_, ?_, ?_, ?_⟩
  · rw [hpc, Vector.length_toList]
    exact Nat.lt_of_lt_of_le (by decide) hsize
  · rw [hinstruction, hpc, word, List.getD_eq_getElem?_getD, hfirst, Option.getD_some]
  · rw [hpc]
    rfl
  · rw [hpc]
    rfl

theorem cycles_of_decode?_none (h : d.beginCycle.Sound) (hbegins : sequencer.Begins d)
    (hdecode : instructionSet.decode? (State.ofDatapath d).instruction = none) (count : Nat) :
    State.ofDatapath (sequencer.cycles count d) =
      { State.ofDatapath d with tick := count % params.wordSize } := by
  have unknown : (State.ofDatapath d.beginCycle).meaning? = none := by
    show meaningOf? (State.ofDatapath d).instruction = none
    unfold meaningOf?
    rw [hdecode]
    rfl
  have waited := (cycles_unknown h unknown count).2
  rw [Sequencer.ofDatapath_cycles_beginCycle] at waited
  rw [waited, begins_iff.mp (show sequencer.Begins d.beginCycle from hbegins), Nat.zero_add]
  rfl

theorem row_of_segment (hsize : 46 ≤ params.wordSize) (h : d.beginCycle.Sound) {cells : List Word}
    (hcells : cells.length = params.wordSize)
    (hlisted : Listed (.plain instructionSet) cells 0 (State.ofDatapath d))
    (hsegment : sequencer.Segment d passages d')
    (hpassages : ∀ p ∈ passages, Plain instructionSet (State.ofDatapath p.before) ∧
      (State.ofDatapath p.before).pc < (State.ofDatapath p.after).pc) :
    ∃ row, ((Listing.plain instructionSet).rows cells)[(State.ofDatapath d').pc]? = some row ∧
      row.address = (State.ofDatapath d').pc ∧ row.value = (State.ofDatapath d').instruction ∧
      (∀ i, instructionSet.decode? (State.ofDatapath d').instruction = some i →
        row.meaning = .opcode i.name ∧
          ((Listing.plain instructionSet).opcodeRows cells)[passages.length]? = some row) ∧
      (instructionSet.decode? (State.ofDatapath d').instruction = none →
        row.meaning = .value ∧ ∀ count, State.ofDatapath (sequencer.cycles count d') =
          { State.ofDatapath d' with tick := count % params.wordSize }) := by
  obtain ⟨row, hrow, haddress, hvalue, hmeaning⟩ :=
    (listed_segment hsize h hcells hlisted hsegment hpassages).row
  refine ⟨row, hrow, haddress, hvalue, fun i hdecode => ?_, fun hdecode => ?_⟩
  · rw [hdecode] at hmeaning
    exact hmeaning
  · rw [hdecode] at hmeaning
    exact ⟨hmeaning, cycles_of_decode?_none (sound_segment h hsegment) hsegment.ends hdecode⟩

end Segments

/-- A standard machine with as many cells as words, freshly reset, runs what is listed: as long as
no instruction has jumped, written memory or passed the last address, the instruction that begins
next is the next opcode of the listing. If the cell behind the last one is a plain value, the
machine stays there. -/
theorem segment_follows_listing {params : Parameters} {arch : Architecture} {δ : Type} [Device δ]
    (h : Architecture.standard params = .ok arch) (hsquare : params.wordSize = params.memorySize)
    {m : Machine arch δ}
    (hmemory : ∀ i : Fin arch.memorySize, m.datapath.memory.get i < params.wordSize)
    (hfirst : m.datapath.memory.toList[0]? = some 0) :
    (∀ count, arch.sequencer.Begins (arch.sequencer.cycles count m.reset.datapath) →
      ∃ passages, arch.sequencer.Segment m.reset.datapath passages
        (arch.sequencer.cycles count m.reset.datapath)) ∧
    ∀ passages d, arch.sequencer.Segment m.reset.datapath passages d →
      (∀ p ∈ passages, Plain arch.instructions (State.ofDatapath p.before) ∧
        (State.ofDatapath p.before).pc < (State.ofDatapath p.after).pc) →
      (∀ p ∈ passages, ∀ i ∈ arch.instructions.decode? (State.ofDatapath p.before).instruction,
        (State.ofDatapath p.after).pc = (State.ofDatapath p.before).pc + i.length) ∧
      ∃ row, ((Listing.plain arch.instructions).rows
          m.datapath.memory.toList)[(State.ofDatapath d).pc]? = some row ∧
        row.address = (State.ofDatapath d).pc ∧ row.value = (State.ofDatapath d).instruction ∧
        (∀ i, arch.instructions.decode? (State.ofDatapath d).instruction = some i →
          row.meaning = .opcode i.name ∧ ((Listing.plain arch.instructions).opcodeRows
            m.datapath.memory.toList)[passages.length]? = some row) ∧
        (arch.instructions.decode? (State.ofDatapath d).instruction = none →
          row.meaning = .value ∧ ∀ count, State.ofDatapath (arch.sequencer.cycles count d) =
            { State.ofDatapath d with tick := count % params.wordSize }) := by
  obtain ⟨valid, hsize, rfl⟩ := standard_ok_iff.mp h
  have values : m.reset.datapath.values = .replicate _ 0 := rfl
  have sound : m.reset.datapath.beginCycle.Sound := by
    refine sound_beginCycle (fun i => ?_) hmemory
    rw [values]
    simpa [Vector.get] using (architecture params valid).wordSize_pos
  have listed : Listed (.plain instructionSet) m.datapath.memory.toList 0
      (State.ofDatapath m.reset.datapath) :=
    listed_of_zero (d := m.reset.datapath) values (hsquare ▸ hsize) hfirst
  have cells : m.datapath.memory.toList.length = params.wordSize := by
    rw [hsquare]
    exact Vector.length_toList
  have begins : sequencer.Begins m.reset.datapath :=
    begins_iff.mpr (ofDatapath_of_zero (d := m.reset.datapath) values).1
  refine ⟨Sequencer.exists_segment begins, fun passages d hsegment hpassages => ⟨?_, ?_⟩⟩
  · intro p hp i hi
    obtain ⟨hplain, honward⟩ := hpassages p hp
    exact pc_of_plain hsize sound hsegment hp hplain honward hi
  · exact row_of_segment hsize sound cells listed hsegment hpassages

def stopping : Machine defaultArchitecture QueueDevice where
  datapath := { (initial : Datapath _ QueueDevice) with
    memory := Vector.ofFn fun i => [0, 17, 97, 4, 255].getD i 0 }
  clock := .new defaultArchitecture.params.clockPeriod
  ticks := 0

def stoppingState (k : Nat) : State 256 QueueDevice :=
  (State.next 256)^[k] (State.ofDatapath stopping.reset.datapath)

theorem stoppingState_run :
    (∀ k < 3, (stoppingState k).meaning?.isSome = true ∧ Plain instructionSet (stoppingState k) ∧
      (stoppingState k).pc < ((stoppingState k).next 256).pc) ∧
    (stoppingState 3).pc = 4 ∧ instructionSet.decode? (stoppingState 3).instruction = none := by
  decide +kernel

theorem segment_follows_listing_stopping :
    ∃ passages d, sequencer.Segment stopping.reset.datapath passages d ∧ passages.length = 3 ∧
      ∃ row, ((Listing.plain instructionSet).rows stopping.datapath.memory.toList)[4]? = some row ∧
        row.meaning = .value ∧ ∀ count, State.ofDatapath (sequencer.cycles count d) =
          { State.ofDatapath d with tick := count % 256 } := by
  have memory : ∀ i, stopping.datapath.memory.get i < 256 := by decide +kernel
  have sound : stopping.reset.datapath.beginCycle.Sound :=
    sound_beginCycle (by decide +kernel) memory
  obtain ⟨plain, hpc, hunknown⟩ := stoppingState_run
  obtain ⟨passages, d, hsegment, hstates, hstate⟩ :=
    exists_segment_iterate (by decide) sound (begins_iff.mpr (by decide +kernel))
      fun k hk => (plain k hk).1
  replace hstates : passages.map (fun p => State.ofDatapath p.before) =
      (List.range 3).map stoppingState := hstates
  replace hstate : State.ofDatapath d = stoppingState 3 := hstate
  have hpassages : ∀ p ∈ passages, Plain instructionSet (State.ofDatapath p.before) ∧
      (State.ofDatapath p.before).pc < (State.ofDatapath p.after).pc := by
    intro p hp
    have begun := List.mem_map_of_mem (f := fun p => State.ofDatapath p.before) hp
    rw [hstates] at begun
    obtain ⟨k, hk, hbefore⟩ := List.mem_map.mp begun
    rw [next_of_mem (by decide) sound hsegment hp, ← hbefore]
    exact (plain k (List.mem_range.mp hk)).2
  have length : passages.length = 3 := by simpa using congrArg List.length hstates
  have pc : (State.ofDatapath d).pc = 4 := by rw [hstate, hpc]
  have unknown : instructionSet.decode? (State.ofDatapath d).instruction = none := by
    rw [hstate, hunknown]
  obtain ⟨-, row, hrow, -, -, -, hmeaning⟩ :=
    (segment_follows_listing standard_default rfl memory (by decide +kernel)).2 passages d hsegment
      hpassages
  replace hrow : ((Listing.plain instructionSet).rows
    stopping.datapath.memory.toList)[(State.ofDatapath d).pc]? = some row := hrow
  rw [pc] at hrow
  exact ⟨passages, d, hsegment, length, row, hrow, hmeaning unknown⟩

end Standard

end BusMachine
