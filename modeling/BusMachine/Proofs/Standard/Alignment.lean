import BusMachine.Device.Queue
import BusMachine.Proofs.Assembly.Statement
import BusMachine.Proofs.Standard.Progress

/-!
Programs whose statements go to labels only and write no memory: however long such a program runs,
each instruction that the machine begins is one of its statements. Operands and data are never taken
for instructions.
-/

namespace BusMachine

namespace Standard

/-- Whether an instruction writes memory or continues at an address that was computed. -/
def Meaning.strays : Meaning → Bool
  | .jumpToA | .writeDirect | .writeIndirect | .writeOperand | .writeCopy | .writeStack
  | .pushOperand | .pushX | .call | .ret => true
  | _ => false

/-- Whether an instruction that does not stray may continue at its operand. -/
def Meaning.jumps : Meaning → Bool
  | .jump | .branch _ => true
  | _ => false

def Meaning.length : Meaning → Nat
  | .jump | .branch _ | .loadOperand _ | .combineOperand _ | .outputOperand | .readDirect
  | .writeDirect | .readStack | .writeStack | .pushOperand | .call => 2
  | .writeOperand | .writeCopy => 3
  | _ => 1

def strayNames : List String :=
  ["jpa", "call", "ret", "pushc", "pushx", "movam", "movap", "movcm", "movmm", "movxs"]

def jumpNames : List String := ["jmp", "jpz", "jnz", "jpc", "jnc"]

theorem strays_of_lookup : ∀ i ∈ standardInstructions, ∀ meaning ∈ meanings.lookup i.name,
    meaning.strays = strayNames.contains i.name := by
  decide +kernel

theorem jumps_of_lookup : ∀ i ∈ standardInstructions, ∀ meaning ∈ meanings.lookup i.name,
    meaning.jumps = jumpNames.contains i.name := by
  decide +kernel

theorem length_of_lookup : ∀ i ∈ standardInstructions, ∀ meaning ∈ meanings.lookup i.name,
    meaning.length = i.length := by
  decide +kernel

theorem lookup_of_opcode_zero : ∀ i ∈ standardInstructions, i.opcode = 0 →
    meanings.lookup i.name = some .nothing := by
  decide +kernel

theorem length_of_jumps {meaning : Meaning} (h : meaning.jumps = true) : meaning.length = 2 := by
  cases meaning with
  | jump | branch condition => rfl
  | _ => cases h

section Perform

variable {size : Nat} {δ : Type} [Device δ] {meaning : Meaning} {wordSize : Nat}
  {s : State size δ}

theorem perform_memory (h : meaning.strays = false) :
    (meaning.perform wordSize s).memory = s.memory := by
  cases meaning with
  | jumpToA | writeDirect | writeIndirect | writeOperand | writeCopy | writeStack | pushOperand
  | pushX | call | ret => cases h
  | copy source target => cases target <;> rfl
  | loadOperand target => cases target <;> rfl
  | _ => rfl

theorem word_perform (h : meaning.strays = false) (address : Word) :
    (meaning.perform wordSize s).word address = s.word address := by
  unfold State.word
  rw [perform_memory h]

variable (wordSize s) in
theorem perform_pc (h : meaning.strays = false) :
    meaning ≠ .jump ∧ (meaning.perform wordSize s).pc = (s.pc + meaning.length) % wordSize ∨
      meaning.jumps = true ∧ (meaning.perform wordSize s).pc = s.word ((s.pc + 1) % wordSize) := by
  cases meaning with
  | jumpToA | writeDirect | writeIndirect | writeOperand | writeCopy | writeStack | pushOperand
  | pushX | call | ret => cases h
  | jump => exact .inr ⟨rfl, rfl⟩
  | branch condition =>
    unfold Meaning.perform
    dsimp only
    split
    · exact .inr ⟨rfl, rfl⟩
    · exact .inl ⟨Meaning.noConfusion, rfl⟩
  | _ => exact .inl ⟨Meaning.noConfusion, rfl⟩

end Perform

variable {params : Parameters} {valid : params.Valid} {δ : Type} [Device δ]

theorem cycles_boundary (hsize : 46 ≤ params.wordSize)
    {P : State params.memorySize δ → Prop}
    (opcode : ∀ s, P s → ∃ i ∈ standardInstructions, s.instruction = i.opcode)
    (next : ∀ s, P s → ∀ i ∈ standardInstructions, s.instruction = i.opcode →
      ∀ meaning, meanings.lookup i.name = some meaning →
        P (meaning.perform params.wordSize s).fetch)
    {d : Datapath (circuit params valid) δ} (h : d.Sound) (htick : (State.ofDatapath d).tick = 0)
    (hstart : P (State.ofDatapath d)) (count : Nat)
    (hcount : (State.ofDatapath (sequencer.cycles count d)).tick = 0) :
    P (State.ofDatapath (sequencer.cycles count d)) := by
  induction count using Nat.strong_induction_on generalizing d with
  | _ count ih =>
    have ⟨i, hi, hinstruction⟩ := opcode _ hstart
    have ⟨meaning, length, hmeaning, _, hpos, inner, last⟩ :=
      cycles_words hi hsize h.values_lt h.memory_lt htick hinstruction
    by_cases hlt : count < length
    · have hzero : count = 0 := (inner count hlt).1.symm.trans hcount
      subst hzero
      exact hstart
    · obtain ⟨rest, rfl⟩ := Nat.exists_eq_add_of_le (Nat.le_of_not_lt hlt)
      rw [Sequencer.cycles_add] at hcount ⊢
      have begun : (State.ofDatapath (sequencer.cycles length d)).tick = 0 := by
        rw [last]
        rfl
      have kept : P (State.ofDatapath (sequencer.cycles length d)) := by
        rw [last]
        exact next _ hstart i hi hinstruction meaning hmeaning
      exact ih rest (by omega) (sound_cycles h length) begun kept hcount

end Standard

namespace Assembly

open Standard

variable {d : Dialect} {statements : List Statement} {p : Program} {words : Array Word}

/-- Statements with labels on mnemonics only, which jump to labels only, write no memory and end
with a jump. -/
structure Confined (d : Dialect) (statements : List Statement) : Prop where
  wellFormed : ∀ s ∈ statements, s.WellFormed d
  unlabelled : ∀ s ∈ statements, ∀ item ∈ s.operands, item.declaration = none
  direct : ∀ s ∈ statements, s.instruction.name ∈ jumpNames → ∀ item ∈ s.operands,
    ∃ name, item.token.content? d 0 = some (.reference (.user name))
  steady : ∀ s ∈ statements, s.instruction.name ∉ strayNames
  last : ∃ s, statements.getLast? = some s ∧ s.instruction.name = "jmp"

theorem Confined.exists_beginsAt (h : Confined d statements)
    (hp : p.Consists d (statements.flatMap Statement.items))
    (hdata : ∀ block ∈ p.data, ∀ name, block.symbol ≠ .user name) {name : String} {address : Nat}
    (haddress : p.declaredAddress? (.user name) = some address) :
    ∃ s, BeginsAt statements s address := by
  unfold Program.declaredAddress? at haddress
  rw [Program.blockAddress?_user hdata, Option.or_none] at haddress
  obtain ⟨k, word, hword, hlabel, rfl⟩ := Program.exists_code_of_labelAddress? haddress
  have hlt := (List.getElem?_eq_some_iff.mp hword).1
  rw [hp.length_eq] at hlt
  have hitem := List.getElem?_eq_getElem hlt
  generalize (statements.flatMap Statement.items)[k] = item at hitem
  have ⟨other, hother, hmeans⟩ := hp.word k item hitem
  cases hword.symm.trans hother
  have labelled := (word?_eq_some_iff.mp hmeans).2.1
  rw [hlabel] at labelled
  have ⟨s, address, j, hs, hj, hk⟩ := exists_statement hitem
  cases j with
  | zero => exact ⟨s, hk ▸ hs⟩
  | succ j =>
    have none := h.unlabelled s hs.mem item (List.mem_of_getElem? hj)
    unfold Item.label? at labelled
    rw [none] at labelled
    cases labelled

theorem Holds.operand (h : Holds d statements p words) {s : Statement} {address : Nat}
    (haddress : BeginsAt statements s address) {item : Item} (hitem : s.operands[0]? = some item)
    {name : String} (hname : item.token.content? d 0 = some (.reference (.user name))) :
    p.declaredAddress? (.user name) = some (words.getD (address + 1) 0) := by
  have ⟨word, value, placed⟩ := h.exists_placed (j := 1) haddress hitem
  obtain ⟨_, _, _, hcontent⟩ := placed.code
  have foreign : ∀ n, Content.reference (.user name) ≠ .reference (.string n) := by simp
  rw [content?_of_ne_string hname foreign] at hcontent
  have meant := placed.meant
  unfold Program.meant? at meant
  rw [← Option.some.inj hcontent] at meant
  rw [Array.getD_eq_getD_getElem?, placed.stored]
  exact meant

theorem items_pos (s : Statement) : 0 < s.items.length := Nat.succ_pos _

theorem Confined.exists_next (h : Confined d statements) {s : Statement} {address : Nat}
    (haddress : BeginsAt statements s address) (hjump : s.instruction.name ≠ "jmp") :
    ∃ next, BeginsAt statements next (address + s.items.length) := by
  obtain ⟨before, after, rfl, rfl⟩ := haddress
  cases after with
  | nil =>
    have ⟨last, hlast, hname⟩ := h.last
    rw [List.getLast?_concat] at hlast
    cases hlast
    exact absurd hname hjump
  | cons next after =>
    refine ⟨next, before ++ [s], after, by simp, ?_⟩
    rw [Statement.addressAfter_append]
    rfl

theorem exists_first (h : Confined d statements) : ∃ s, BeginsAt statements s 1 := by
  have ⟨last, hlast, _⟩ := h.last
  cases statements with
  | nil => cases hlast
  | cons s rest => exact ⟨s, [], rest, rfl, rfl⟩

/-- A state that begins a statement, or the word in front of all statements. -/
structure Begins {size : Nat} {δ : Type} (statements : List Statement) (words : Array Word)
    (s : State size δ) : Prop where
  memory : ∀ address, s.word address = words.getD address 0
  place : s.pc = 0 ∧ s.instruction = 0 ∨
    ∃ statement, BeginsAt statements statement s.pc ∧
      s.instruction = statement.instruction.opcode

section Next

variable {size : Nat} {δ : Type} [Device δ] {s : State size δ}

omit [Device δ] in
theorem Holds.begins_fetch (h : Holds d statements p words)
    (hmemory : ∀ address, s.word address = words.getD address 0) {statement : Statement}
    (haddress : BeginsAt statements statement s.pc) : Begins statements words s.fetch := by
  refine ⟨hmemory, .inr ⟨statement, haddress, ?_⟩⟩
  refine (hmemory s.pc).trans ?_
  rw [Array.getD_eq_getD_getElem?, h.getElem?_opcode haddress, Option.getD_some]

theorem Holds.begins_first (h : Holds d statements p words) (hconfined : Confined d statements)
    {wordSize : Nat} (hsize : 46 ≤ wordSize)
    (hmemory : ∀ address, s.word address = words.getD address 0) (hpc : s.pc = 0) :
    Begins statements words (Standard.Meaning.nothing.perform wordSize s).fetch := by
  have ⟨first, haddress⟩ := exists_first hconfined
  have next : (Standard.Meaning.nothing.perform wordSize s).pc = 1 := by
    show (s.pc + 1) % wordSize = 1
    rw [hpc]
    exact Nat.mod_eq_of_lt (by omega)
  refine h.begins_fetch (fun address => ?_) (next ▸ haddress)
  rw [word_perform rfl, hmemory]

theorem Holds.begins_next (h : Holds d statements p words) (hconfined : Confined d statements)
    (hdata : ∀ block ∈ p.data, ∀ name, block.symbol ≠ .user name) {wordSize : Nat}
    (hlength : p.imageLength ≤ wordSize)
    (hmemory : ∀ address, s.word address = words.getD address 0) {statement : Statement}
    (haddress : BeginsAt statements statement s.pc) {meaning : Standard.Meaning}
    (hmember : statement.instruction ∈ standardInstructions)
    (hmeaning : meanings.lookup statement.instruction.name = some meaning) :
    Begins statements words (meaning.perform wordSize s).fetch := by
  have wellFormed := hconfined.wellFormed statement haddress.mem
  have hstrays : meaning.strays = false := by
    rw [strays_of_lookup _ hmember _ hmeaning]
    simpa using hconfined.steady statement haddress.mem
  have memory : ∀ address, (meaning.perform wordSize s).word address = words.getD address 0 := by
    intro address
    rw [word_perform hstrays, hmemory]
  have items : statement.items.length = meaning.length := by
    rw [length_of_lookup _ hmember _ hmeaning, Statement.length_items wellFormed]
  have bound : Statement.addressAfter statements ≤ wordSize := by
    rw [← h.codeEnd_eq]
    exact Nat.le_trans p.codeEnd_le_imageLength hlength
  obtain ⟨hjump, hpc⟩ | ⟨hjumps, hpc⟩ := perform_pc wordSize s hstrays
  · have name : statement.instruction.name ≠ "jmp" := by
      intro hname
      rw [hname] at hmeaning
      exact hjump (Option.some.inj hmeaning).symm
    have ⟨next, hnext⟩ := hconfined.exists_next haddress name
    have inside := hnext.le
    have pos := items_pos next
    rw [← items, Nat.mod_eq_of_lt (by omega)] at hpc
    exact h.begins_fetch memory (hpc ▸ hnext)
  · have jumpName : statement.instruction.name ∈ jumpNames := by
      rw [jumps_of_lookup _ hmember _ hmeaning] at hjumps
      simpa using hjumps
    have two : statement.items.length = 2 := items.trans (length_of_jumps hjumps)
    have ⟨item, hitem⟩ : ∃ item, statement.operands[0]? = some item := by
      unfold Statement.items at two
      rw [List.length_cons] at two
      exact ⟨_, List.getElem?_eq_getElem (by omega)⟩
    have ⟨name, hname⟩ :=
      hconfined.direct statement haddress.mem jumpName item (List.mem_of_getElem? hitem)
    have ⟨target, htarget⟩ :=
      hconfined.exists_beginsAt h.consists hdata (h.operand haddress hitem hname)
    have inside := haddress.le
    rw [Nat.mod_eq_of_lt (by omega), hmemory] at hpc
    exact h.begins_fetch memory (hpc ▸ htarget)

end Next

theorem mem_of_wellFormed {s : Statement} (hd : d.instructions = instructionSet)
    (h : s.WellFormed d) : s.instruction ∈ standardInstructions := by
  have ⟨text, _, hnamed⟩ := Statement.exists_mnemonic h
  rw [hd] at hnamed
  exact mem_standardInstructions _ (InstructionSet.named?_mem hnamed)

variable {params : Parameters} {valid : params.Valid} {δ : Type} [Device δ]

theorem begins_cycles (hsize : 46 ≤ params.wordSize) (hd : d.instructions = instructionSet)
    (h : Holds d statements p words) (hconfined : Confined d statements)
    (hdata : ∀ block ∈ p.data, ∀ name, block.symbol ≠ .user name)
    (hlength : p.imageLength ≤ params.wordSize) {datapath : Datapath (circuit params valid) δ}
    (sound : datapath.Sound) (htick : (State.ofDatapath datapath).tick = 0)
    (hstart : Begins statements words (State.ofDatapath datapath)) (count : Nat)
    (hcount : (State.ofDatapath (sequencer.cycles count datapath)).tick = 0) :
    Begins statements words (State.ofDatapath (sequencer.cycles count datapath)) := by
  refine cycles_boundary hsize ?_ ?_ sound htick hstart count hcount
  · rintro s ⟨-, ⟨-, hzero⟩ | ⟨statement, haddress, hopcode⟩⟩
    · have ⟨i, hi, hnone⟩ : ∃ i ∈ standardInstructions, i.opcode = 0 := by decide
      exact ⟨i, hi, hzero.trans hnone.symm⟩
    · exact ⟨_, mem_of_wellFormed hd (hconfined.wellFormed _ haddress.mem), hopcode⟩
  · rintro s ⟨hmemory, ⟨hpc, hzero⟩ | ⟨statement, haddress, hopcode⟩⟩ i hi hinstruction meaning
      hmeaning
    · rw [lookup_of_opcode_zero i hi (hinstruction.symm.trans hzero)] at hmeaning
      cases hmeaning
      exact h.begins_first hconfined hsize hmemory hpc
    · have member := mem_of_wellFormed hd (hconfined.wellFormed _ haddress.mem)
      have decoded := decode?_eq_some_iff.mpr ⟨hi, hinstruction.symm.trans hopcode⟩
      rw [decode?_eq_some_iff.mpr ⟨member, rfl⟩] at decoded
      cases decoded
      exact h.begins_next hconfined hdata hlength hmemory haddress member hmeaning

end Assembly

def Machine.withPorts (arch : Architecture) {δ : Type} [Device δ] (ports : Ports δ) :
    Machine arch δ :=
  (Machine.new arch).perform (.changePorts fun _ => ports)

namespace Assembly

open Standard

variable {params : Parameters} {arch : Architecture} {δ : Type} [Device δ]

omit [Device δ] in
theorem word_holding (m : Machine arch δ) {words : Array Word}
    (hsize : words.size ≤ arch.memorySize)
    (address : Word) :
    (State.ofDatapath (holding m words).datapath).word address = words.getD address 0 := by
  show (Vector.ofFn fun i : Fin arch.memorySize => words.getD i 0).getD address 0 = _
  by_cases hlt : address < arch.memorySize
  · simp [Vector.getD, hlt]
  · have outside : words.size ≤ address := Nat.le_trans hsize (Nat.le_of_not_lt hlt)
    simp [Vector.getD, hlt, outside]

/-- A program whose statements go to labels only and write no memory stays within its text: whatever
the devices answer and however the machine is driven, an instruction that it begins is the empty
one at address 0 or a statement, at the address that its mnemonic was given. -/
theorem drive_confined (h : Architecture.standard params = .ok arch) (ports : Ports δ)
    {source : String} {strict : Bool} {annotations : Annotations} {m : Machine arch δ}
    (hcompile : compile (.withPorts arch ports) source strict = (.ok annotations, m)) {p : Program}
    (hparse : Program.parse (.ofArchitecture arch strict) (Token.scan source) = .ok p)
    (hlength : p.imageLength ≤ params.wordSize) {statements : List Statement}
    (hsource : Token.scan source = statements.flatMap Statement.tokens)
    (hconfined : Confined (.ofArchitecture arch strict) statements) (calls : List Call)
    (htick : (State.ofDatapath (m.drive calls).datapath).tick = 0) :
    (State.ofDatapath (m.drive calls).datapath).pc = 0 ∧
      (State.ofDatapath (m.drive calls).datapath).instruction = 0 ∨
    ∃ statement word,
      BeginsAt statements statement (State.ofDatapath (m.drive calls).datapath).pc ∧
      p.code[(State.ofDatapath (m.drive calls).datapath).pc - 1]? = some word ∧
      word.position = statement.mnemonic.token.position ∧
      (State.ofDatapath (m.drive calls).datapath).instruction = statement.instruction.opcode := by
  obtain ⟨valid, hsize, rfl⟩ := standard_ok_iff.mp h
  have fits : (Dialect.ofArchitecture (architecture params valid) strict).Fits :=
    ⟨valid.wordSize_pos, opcode_lt_iff.mpr hsize⟩
  have reachable : (Machine.withPorts (architecture params valid) ports).Reachable :=
    .perform .new rfl
  have sound := (onTrack_of_reachable hsize (reachable.compile source strict)).1
  rw [hcompile] at sound
  obtain ⟨image, himage, rfl⟩ := exists_image_of_compile fits hcompile
  have ⟨isImage, hfits, _⟩ := isImage_of_ofSource himage hparse
  have hdata := symbol_ne_user_of_parse hparse
  rw [hsource] at hparse
  have holds : Holds _ statements p image.words :=
    ⟨hconfined.wellFormed, consists_of_statements hconfined.wellFormed hparse, isImage⟩
  have size_le : image.words.size ≤ params.memorySize := by
    rw [isImage.size_eq, ← p.imageLength_eq]
    exact hfits
  have memory := word_holding (Machine.withPorts (architecture params valid) ports) size_le
  have values : (holding (Machine.withPorts (architecture params valid) ports)
      image.words).datapath.values = .replicate _ 0 := rfl
  generalize holding (Machine.withPorts (architecture params valid) ports) image.words = m
    at htick sound memory values ⊢
  have ⟨tick, instruction, pc, _⟩ := ofDatapath_of_zero (d := m.datapath) values
  have begins : Begins statements image.words (State.ofDatapath m.datapath) :=
    ⟨memory, .inl ⟨pc, instruction⟩⟩
  have ⟨_, reached⟩ := m.ran_drive calls
  rw [reached] at htick ⊢
  have place :=
    (begins_cycles hsize rfl holds hconfined hdata hlength sound tick begins _ htick).place
  obtain first | ⟨statement, haddress, hopcode⟩ := place
  · exact .inl first
  · have ⟨word, _, placed⟩ := holds.exists_placed (j := 0) haddress rfl
    exact .inr ⟨statement, word, haddress, placed.getElem?_code, placed.position, hopcode⟩

def chanting : List Statement :=
  [{ instruction := ⟨"loa", 17, [.immediate], "A = #value"⟩
     mnemonic := ⟨some ⟨.word "::go", ⟨1, 1⟩⟩, ⟨.word "loa", ⟨1, 6⟩⟩⟩
     operands := [⟨none, ⟨.word "'a", ⟨1, 10⟩⟩⟩] },
    { instruction := ⟨"aout", 4, [], "outputs A"⟩
      mnemonic := ⟨none, ⟨.word "AOUT", ⟨1, 13⟩⟩⟩
      operands := [] },
    { instruction := ⟨"jmp", 1, [.address], "jumps to $target"⟩
      mnemonic := ⟨none, ⟨.word "jmp", ⟨1, 18⟩⟩⟩
      operands := [⟨none, ⟨.word ":go", ⟨1, 22⟩⟩⟩] }]

def chant : Program where
  code := [⟨.word 17, some (.user "go"), ⟨1, 6⟩⟩, ⟨.word 97, none, ⟨1, 10⟩⟩,
    ⟨.word 4, none, ⟨1, 13⟩⟩, ⟨.word 1, none, ⟨1, 18⟩⟩,
    ⟨.reference (.user "go"), none, ⟨1, 22⟩⟩]

theorem confined_chanting : Confined (.ofArchitecture defaultArchitecture true) chanting where
  wellFormed := by decide +kernel
  unlabelled := by decide
  direct := by
    have operands : ∀ s ∈ chanting, s.instruction.name ∈ jumpNames →
        s.operands = [⟨none, ⟨.word ":go", ⟨1, 22⟩⟩⟩] := by
      decide +kernel
    intro s hs hname item hitem
    rw [operands s hs hname, List.mem_singleton] at hitem
    subst hitem
    exact ⟨"go", by decide +kernel⟩
  steady := by decide +kernel
  last := ⟨_, rfl, rfl⟩

theorem tick_of_three_ticks {valid : params.Valid} (hsize : 46 ≤ params.wordSize)
    {m : Machine (architecture params valid) δ} (h : m.datapath.Sound)
    (hvalues : m.datapath.values = .replicate _ 0) :
    (State.ofDatapath (m.drive [.tick, .tick, .tick]).datapath).tick = 0 := by
  have member : (⟨"nop", 0, [], "does nothing"⟩ : Instruction) ∈ standardInstructions := by decide
  have ⟨meaning, carried⟩ := exists_carriesOut member
  cases carried.meaning_eq.symm.trans (rfl : meanings.lookup "nop" = some .nothing)
  have ⟨tick, instruction, _⟩ := ofDatapath_of_zero (d := m.datapath) hvalues
  have ⟨_, fetched⟩ := cycles_steps carried hsize h tick instruction
  rw [(m.ran_drive _).2]
  exact congrArg State.tick fetched

theorem drive_confined_chanting :
    ∃ annotations m,
      compile (.withPorts defaultArchitecture (.ofList [(0, ({} : QueueDevice))]))
        "::go loa 'a AOUT jmp :go" true = (.ok annotations, m) ∧
      (State.ofDatapath (m.drive [.tick, .tick, .tick]).datapath).tick = 0 ∧
      ((State.ofDatapath (m.drive [.tick, .tick, .tick]).datapath).pc = 0 ∧
        (State.ofDatapath (m.drive [.tick, .tick, .tick]).datapath).instruction = 0 ∨
      ∃ statement word,
        BeginsAt chanting statement
          (State.ofDatapath (m.drive [.tick, .tick, .tick]).datapath).pc ∧
        chant.code[(State.ofDatapath (m.drive [.tick, .tick, .tick]).datapath).pc - 1]? =
          some word ∧
        word.position = statement.mnemonic.token.position ∧
        (State.ofDatapath (m.drive [.tick, .tick, .tick]).datapath).instruction =
          statement.instruction.opcode) := by
  have parsed : Program.parse (.ofArchitecture defaultArchitecture true)
      (Token.scan "::go loa 'a AOUT jmp :go") = .ok chant :=
    eq_ok_of_toOption (by decide +kernel)
  have assembled : Assembles _ 256 _ chant := assembles_of_parse (by decide) parsed
  have resolvable : chant.Resolvable 256 := Program.resolvable_iff.mpr (by decide)
  have ⟨image, himage⟩ := assembled.accepted.mpr ⟨by decide, resolvable⟩
  have fits : (Dialect.ofArchitecture defaultArchitecture true).Fits :=
    ⟨by decide, opcode_lt_iff.mpr (by decide)⟩
  have compiled := compile_of_ofSource
    (.withPorts defaultArchitecture (.ofList [(0, ({} : QueueDevice))])) fits himage
  have reachable : (Machine.withPorts defaultArchitecture
      (.ofList [(0, ({} : QueueDevice))])).Reachable := .perform .new rfl
  have sound := (onTrack_of_reachable (by decide)
    (reachable.compile "::go loa 'a AOUT jmp :go" true)).1
  rw [compiled] at sound
  have tick := tick_of_three_ticks (by decide) sound rfl
  exact ⟨_, _, compiled, tick, drive_confined standard_default _ compiled parsed (by decide)
    (by decide +kernel) confined_chanting _ tick⟩

end Assembly

end BusMachine
