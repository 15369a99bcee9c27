import BusMachine.Proofs.Architecture.InstructionSet
import BusMachine.Proofs.Assembly.Annotations
import BusMachine.Proofs.Assembly.Source
import BusMachine.Proofs.Assembly.Statement
import BusMachine.Proofs.Listing.Rows
import BusMachine.Proofs.Standard.Architecture
import Mathlib.Data.List.Induction

/-!
Listings of assembled texts: the listing of an image with its annotations shows the statements that
it was assembled from.
-/

namespace BusMachine.Assembly

/-- A listing that knows the instructions of a dialect, and an image of statements. -/
structure Shown (d : Dialect) (statements : List Statement) (p : Program) (words : Array Word)
    (l : Listing) : Prop where
  instructions : l.instructions = d.instructions
  annotations : l.annotations = some (Layout.ofProgram p).annotations
  codeEnd : (Layout.ofProgram p).annotations.codeEnd = p.codeEnd
  length_le : p.imageLength ≤ addressSpace
  holds : Holds d statements p words
  /-- The word at address 0 takes up no other word. -/
  idle : ∀ i, d.instructions.decode? 0 = some i → i.operands = []
  decoded : ∀ s ∈ statements, d.instructions.decode? s.instruction.opcode = some s.instruction
  named : ∀ s ∈ statements, ∃ text, s.mnemonic.token.lexeme = .word text ∧
    s.instruction.name = Text.lower text

namespace Shown

variable {d : Dialect} {statements : List Statement} {p : Program} {words : Array Word}
  {l : Listing} {s : Statement} {address : Nat}

theorem size_eq (h : Shown d statements p words l) : words.size = p.imageLength :=
  h.holds.image.size

theorem le_codeEnd (h : Shown d statements p words l) (haddress : BeginsAt statements s address) :
    address + 1 + s.instruction.operands.length ≤ p.codeEnd := by
  have bound := haddress.le
  have items := Statement.length_items (h.holds.wellFormed s haddress.mem)
  unfold Instruction.length at items
  rw [h.holds.codeEnd_eq]
  omega

theorem codeEnd_le (h : Shown d statements p words l) : p.codeEnd ≤ words.toList.length := by
  rw [Array.length_toList, h.size_eq]
  exact p.codeEnd_le_imageLength

theorem getElem?_opcode (h : Shown d statements p words l)
    (haddress : BeginsAt statements s address) :
    words.toList[address]? = some s.instruction.opcode := by
  rw [Array.getElem?_toList]
  exact h.holds.getElem?_opcode haddress

theorem decode? (h : Shown d statements p words l) (haddress : BeginsAt statements s address) :
    l.instructions.decode? s.instruction.opcode = some s.instruction := by
  rw [h.instructions]
  exact h.decoded s haddress.mem

theorem expectedAt_operand (h : Shown d statements p words l)
    (haddress : BeginsAt statements s address)
    (hfree : l.expectedAt p.codeEnd words.toList address = []) {j : Nat}
    (hj : j ≤ s.instruction.operands.length) :
    l.expectedAt p.codeEnd words.toList (address + 1 + j) = s.instruction.operands.drop j := by
  have bound := h.le_codeEnd haddress
  have inside := h.codeEnd_le
  have first : l.expectedAt p.codeEnd words.toList (address + 1) = s.instruction.operands := by
    rw [Listing.expectedAt_succ l p.codeEnd (h.getElem?_opcode haddress), hfree,
      Listing.meaning_of_decode? (by omega) (h.decode? haddress)]
  rw [Listing.expectedAt_add (by omega) (by omega) (by rw [first]; exact hj), first]

theorem expectedAt_statement (h : Shown d statements p words l)
    (haddress : BeginsAt statements s address) :
    l.expectedAt p.codeEnd words.toList address = [] := by
  obtain ⟨before, after, hs, rfl⟩ := haddress
  have all : ∀ before rest, statements = before ++ rest →
      l.expectedAt p.codeEnd words.toList (Statement.addressAfter before) = [] := by
    intro before
    induction before using List.reverseRecOn with
    | nil =>
      intro rest _
      have reserved : words.toList[0]? = some 0 := by
        rw [Array.getElem?_toList]
        exact h.holds.image.reserved
      have code : 0 < p.codeEnd := Nat.succ_pos _
      have first := Listing.expectedAt_succ l p.codeEnd reserved
      rw [Nat.zero_add] at first
      refine first.trans ?_
      show (l.meaning p.codeEnd 0 0 []).2 = []
      cases hzero : l.instructions.decode? 0 with
      | none =>
        unfold Listing.meaning
        rw [if_neg (Nat.not_le_of_lt code), hzero]
      | some i =>
        rw [Listing.meaning_of_decode? code hzero]
        exact h.idle i (h.instructions ▸ hzero)
    | append_singleton before s ih =>
      intro rest hrest
      rw [List.append_assoc] at hrest
      have haddress : BeginsAt statements s (Statement.addressAfter before) :=
        ⟨before, rest, hrest, rfl⟩
      have items := Statement.length_items (h.holds.wellFormed s haddress.mem)
      unfold Instruction.length at items
      have behind := h.expectedAt_operand haddress (ih _ hrest) (Nat.le_refl _)
      rw [List.drop_length] at behind
      rw [Statement.addressAfter_append, items, List.flatMap_nil, List.length_nil, Nat.add_zero,
        ← Nat.add_assoc]
      exact behind
  exact all before _ hs

theorem getElem?_rows (h : Shown d statements p words l) {k : Nat} {value : Word}
    (hvalue : words[k]? = some value) :
    (l.rows words.toList)[k]? = some
      { address := k, value, label := l.label? k
        meaning := (l.meaning p.codeEnd k value (l.expectedAt p.codeEnd words.toList k)).1 } := by
  rw [Listing.getElem?_rows h.annotations, h.codeEnd, Array.getElem?_toList, hvalue]
  rfl

theorem le_maxWord (h : Shown d statements p words l) {k : Nat} (hk : k < p.imageLength) :
    k ≤ maxWord :=
  Nat.le_of_lt_succ (Nat.lt_of_lt_of_le hk h.length_le)

theorem mnemonic (h : Shown d statements p words l) (haddress : BeginsAt statements s address) :
    ∃ row text word, (l.rows words.toList)[address]? = some row ∧
      Placed d (statements.flatMap Statement.items) p words s.mnemonic address word row.value ∧
      row.value = s.instruction.opcode ∧ s.mnemonic.token.lexeme = .word text ∧
      row.meaning = .opcode (Text.lower text) := by
  have ⟨text, hlexeme, hname⟩ := h.named s haddress.mem
  have bound := h.le_codeEnd haddress
  have ⟨word, value, placed⟩ := h.holds.exists_placed (j := 0) haddress rfl
  have opcode := h.holds.getElem?_opcode haddress
  obtain rfl : value = s.instruction.opcode := Option.some.inj (placed.stored.symm.trans opcode)
  refine ⟨_, text, word, h.getElem?_rows opcode, placed, rfl, hlexeme, ?_⟩
  dsimp only
  rw [h.expectedAt_statement haddress, Listing.meaning_of_decode? (by omega) (h.decode? haddress),
    hname]

theorem label (h : Shown d statements p words l) (hdata : ∀ block ∈ p.data, block.words ≠ [])
    {k : Nat} (hk : k < p.imageLength) {text : String} :
    l.label? k = some text ↔ ∃ symbol, p.declaredAddress? symbol = some k ∧ symbol.text = text := by
  unfold Listing.label?
  rw [if_pos (h.le_maxWord hk), h.annotations, Option.bind_some,
    Layout.label?_eq_some_iff hdata (h.le_maxWord hk)]

theorem operand (h : Shown d statements p words l) (hdata : ∀ block ∈ p.data, block.words ≠ [])
    (haddress : BeginsAt statements s address) {j : Nat} {item : Item} {kind : OperandKind}
    (hitem : s.operands[j]? = some item) (hkind : s.instruction.operands[j]? = some kind) :
    ∃ row word target, (l.rows words.toList)[address + 1 + j]? = some row ∧
      Placed d (statements.flatMap Statement.items) p words item (address + 1 + j) word row.value ∧
      row.meaning = .operand kind target ∧
      ∀ symbol, kind = .address → word.content = .reference symbol →
        target = some symbol.text := by
  have ⟨hlt, hget⟩ := List.getElem?_eq_some_iff.mp hkind
  have bound := h.le_codeEnd haddress
  have ⟨word, value, placed⟩ := h.holds.exists_placed (j := j + 1) haddress hitem
  rw [Nat.add_comm j, ← Nat.add_assoc] at placed
  refine ⟨_, word, l.target? kind value, h.getElem?_rows placed.stored, placed, ?_, ?_⟩
  · dsimp only
    rw [h.expectedAt_operand haddress (h.expectedAt_statement haddress) (Nat.le_of_lt hlt),
      List.drop_eq_getElem_cons hlt, hget, Listing.meaning_of_expected (by omega)]
  · rintro symbol rfl hcontent
    have declared := placed.meant
    unfold Program.meant? at declared
    rw [hcontent] at declared
    have inside := h.le_maxWord (Program.declaredAddress?_lt hdata declared)
    unfold Listing.target?
    rw [h.annotations]
    exact (Layout.label?_eq_some_iff hdata inside).mpr ⟨symbol, declared, rfl⟩

theorem data (h : Shown d statements p words l) {k : Nat} (hcode : p.codeEnd ≤ k)
    (hk : k < p.imageLength) (value : Word) :
    ∃ (j : Nat) (block : DataBlock), p.data[j]? = some block ∧ p.blockStart j ≤ k ∧
      k < p.blockStart j + block.words.length ∧
      (l.meaning p.codeEnd k value (l.expectedAt p.codeEnd words.toList k)).1 =
        .data (some block.symbol.text) := by
  have ⟨j, block, hj, hle, hlt⟩ := Program.exists_block hcode hk
  refine ⟨j, block, hj, hle, hlt, ?_⟩
  rw [Listing.meaning_of_data hcode]
  unfold Listing.dataName?
  rw [if_pos (h.le_maxWord hk), h.annotations, Option.bind_some,
    Layout.dataAround?_annotations hj hle hlt (h.le_maxWord hk)]
  rfl

end Shown

/-- Rows that show the statements of a program, their labels and the data behind them. -/
structure Restores (d : Dialect) (statements : List Statement) (p : Program) (words : Array Word)
    (rows : List ListingRow) : Prop where
  length_eq : rows.length = words.size
  address : ∀ (k : Nat) (row : ListingRow), rows[k]? = some row → row.address = k
  mnemonic : ∀ s address, BeginsAt statements s address →
    ∃ row text word, rows[address]? = some row ∧
      Placed d (statements.flatMap Statement.items) p words s.mnemonic address word row.value ∧
      row.value = s.instruction.opcode ∧ s.mnemonic.token.lexeme = .word text ∧
      row.meaning = .opcode (Text.lower text)
  /-- Operands have the kinds of the instruction in order, and one that refers to a symbol by its
  address is shown with that symbol. -/
  operand : ∀ s address, BeginsAt statements s address → ∀ (j : Nat) (item : Item)
    (kind : OperandKind), s.operands[j]? = some item → s.instruction.operands[j]? = some kind →
    ∃ row word target, rows[address + 1 + j]? = some row ∧
      Placed d (statements.flatMap Statement.items) p words item (address + 1 + j) word row.value ∧
      row.meaning = .operand kind target ∧
      ∀ symbol, kind = .address → word.content = .reference symbol → target = some symbol.text
  /-- A cell has a label if it is the first that a symbol was declared for. -/
  label : ∀ (k : Nat) (row : ListingRow), rows[k]? = some row → ∀ text, row.label = some text ↔
    ∃ symbol, p.declaredAddress? symbol = some k ∧ symbol.text = text
  data : ∀ (k : Nat) (row : ListingRow), rows[k]? = some row → p.codeEnd ≤ k →
    ∃ (j : Nat) (block : DataBlock), p.data[j]? = some block ∧ p.blockStart j ≤ k ∧
      k < p.blockStart j + block.words.length ∧ row.meaning = .data (some block.symbol.text)

theorem Shown.restores {d : Dialect} {statements : List Statement} {p : Program}
    {words : Array Word} {l : Listing} (h : Shown d statements p words l)
    (hdata : ∀ block ∈ p.data, block.words ≠ []) :
    Restores d statements p words (l.rows words.toList) := by
  have cell : ∀ {k : Nat} {row : ListingRow}, (l.rows words.toList)[k]? = some row →
      k < p.imageLength ∧ row = { address := k, value := row.value, label := l.label? k
                                  meaning := (l.meaning p.codeEnd k row.value
                                    (l.expectedAt p.codeEnd words.toList k)).1 } := by
    intro k row hrow
    have shown := hrow
    rw [Listing.getElem?_rows h.annotations, h.codeEnd, Option.map_eq_some_iff] at shown
    obtain ⟨value, hvalue, rfl⟩ := shown
    have hlt := (List.getElem?_eq_some_iff.mp hvalue).1
    rw [Array.length_toList, h.size_eq] at hlt
    exact ⟨hlt, rfl⟩
  constructor
  · rw [Listing.length_rows, Array.length_toList]
  · intro k row hrow
    rw [(cell hrow).2]
  · intro s address haddress
    exact h.mnemonic haddress
  · intro s address haddress j item kind hitem hkind
    exact h.operand hdata haddress hitem hkind
  · intro k row hrow text
    rw [(cell hrow).2]
    exact h.label hdata (cell hrow).1
  · intro k row hrow hcode
    rw [(cell hrow).2]
    exact h.data hcode (cell hrow).1 row.value

/-- The listing of an assembled text with its annotations gives the text back: where the statements
are, with their mnemonics, operands, labels and references, and to which block each data word
belongs. -/
theorem rows_of_ofSource {d : Dialect} {instructions : List Instruction}
    (hset : InstructionSet.ofList instructions = .ok d.instructions)
    (hidle : ∀ i, d.instructions.decode? 0 = some i → i.operands = []) {memorySize : Nat}
    (hmemory : memorySize ≤ addressSpace) {source : String} {statements : List Statement}
    (hsource : Token.scan source = statements.flatMap Statement.tokens)
    (hstatements : ∀ s ∈ statements, s.WellFormed d) {p : Program}
    (hparse : Program.parse d (Token.scan source) = .ok p) {image : Image}
    (himage : Image.ofSource d memorySize source = .ok image)
    (hdata : ∀ block ∈ p.data, block.words ≠ []) (hcode : p.codeEnd ≤ maxWord) :
    Restores d statements p image.words
      (Listing.rows { instructions := d.instructions, annotations := some image.annotations }
        image.words.toList) := by
  have ⟨isImage, hlength, hannotations⟩ := isImage_of_ofSource himage hparse
  rw [hsource] at hparse
  have shown : Shown d statements p image.words
      { instructions := d.instructions, annotations := some image.annotations } :=
    { instructions := rfl
      annotations := congrArg some hannotations
      codeEnd := Nat.min_eq_left hcode
      length_le := Nat.le_trans hlength hmemory
      holds := ⟨hstatements, consists_of_statements hstatements hparse, isImage⟩
      idle := hidle
      decoded := fun s hs =>
        have ⟨_, _, hnamed⟩ := Statement.exists_mnemonic (hstatements s hs)
        (InstructionSet.of_named? hset hnamed).1
      named := fun s hs =>
        have ⟨text, hlexeme, hnamed⟩ := Statement.exists_mnemonic (hstatements s hs)
        ⟨text, hlexeme, (InstructionSet.of_named? hset hnamed).2⟩ }
  exact shown.restores hdata

def signing : List Statement :=
  [{ instruction := ⟨"movcm", 34, [.immediate, .address], "*$address = #value"⟩
     mnemonic := ⟨some ⟨.word "::go", ⟨1, 1⟩⟩, ⟨.word "movcm", ⟨1, 6⟩⟩⟩
     operands := [⟨none, ⟨.string [97, 98] true, ⟨1, 12⟩⟩⟩, ⟨none, ⟨.word ":end", ⟨1, 17⟩⟩⟩] },
    { instruction := ⟨"jmp", 1, [.address], "jumps to $target"⟩
      mnemonic := ⟨none, ⟨.word "JMP", ⟨1, 22⟩⟩⟩
      operands := [⟨none, ⟨.word ":end", ⟨1, 26⟩⟩⟩] },
    { instruction := ⟨"jmp", 1, [.address], "jumps to $target"⟩
      mnemonic := ⟨some ⟨.word "::end", ⟨1, 31⟩⟩, ⟨.word "jmp", ⟨1, 37⟩⟩⟩
      operands := [⟨none, ⟨.word ":go", ⟨1, 41⟩⟩⟩] }]

def signed : Program where
  code := [⟨.word 34, some (.user "go"), ⟨1, 6⟩⟩, ⟨.reference (.string 0), none, ⟨1, 12⟩⟩,
    ⟨.reference (.user "end"), none, ⟨1, 17⟩⟩, ⟨.word 1, none, ⟨1, 22⟩⟩,
    ⟨.reference (.user "end"), none, ⟨1, 26⟩⟩, ⟨.word 1, some (.user "end"), ⟨1, 37⟩⟩,
    ⟨.reference (.user "go"), none, ⟨1, 41⟩⟩]
  data := [⟨.string 0, [97, 98, 0], ⟨1, 12⟩⟩]

theorem rows_of_ofSource_signing :
    ∃ image : Image,
      Image.ofSource { instructions := Standard.instructionSet, wordSize := 256 } 256
        "::go movcm \"ab\" :end JMP :end ::end jmp :go" = .ok image ∧
      Restores { instructions := Standard.instructionSet, wordSize := 256 } signing signed
        image.words
        (Listing.rows
          { instructions := Standard.instructionSet, annotations := some image.annotations }
          image.words.toList) := by
  have parsed : Program.parse { instructions := Standard.instructionSet, wordSize := 256 }
      (Token.scan "::go movcm \"ab\" :end JMP :end ::end jmp :go") = .ok signed :=
    eq_ok_of_toOption (by decide +kernel)
  have assembled : Assembles _ 256 _ signed := assembles_of_parse (by decide) parsed
  have resolvable : signed.Resolvable 256 := Program.resolvable_iff.mpr (by decide)
  have ⟨image, himage⟩ := assembled.accepted.mpr ⟨by decide, resolvable⟩
  have first : Standard.instructionSet.decode? 0 = some ⟨"nop", 0, [], "does nothing"⟩ := by
    decide +kernel
  have idle : ∀ i, Standard.instructionSet.decode? 0 = some i → i.operands = [] := by
    intro i hi
    cases first.symm.trans hi
    rfl
  exact ⟨image, himage, rows_of_ofSource Standard.ofList_eq idle (by decide) (by decide +kernel)
    (by decide +kernel) parsed himage (by decide) (by decide)⟩

end BusMachine.Assembly
