import BusMachine.Proofs.Architecture.InstructionSet
import BusMachine.Proofs.Assembly.Values
import BusMachine.Proofs.Machine.InPlace
import BusMachine.Proofs.Standard.Architecture
import BusMachine.Proofs.Text.Trimming
import BusMachine.Terminal

/-!
Editing single cells. A text means the same word in a cell as in a program, and an edit writes that
word into that cell and changes nothing else. An edit that is refused changes nothing.
-/

namespace BusMachine

namespace InstructionSet

variable {set : InstructionSet} {wordSize : Nat}

theorem wordOf?_append {before after : List Char}
    (hbefore : ∀ c ∈ before, Text.isWhitespace c = true)
    (hafter : ∀ c ∈ after, Text.isWhitespace c = true) (text : String) :
    set.wordOf? wordSize (String.ofList (before ++ text.toList ++ after)) =
      set.wordOf? wordSize text := by
  unfold wordOf?
  rw [String.toList_ofList, Text.trim_append hbefore hafter]

theorem wordOf?_lt (hpos : 0 < wordSize) (hset : ∀ i ∈ set.toList, i.opcode < wordSize)
    {text : String} {value : Word} (h : set.wordOf? wordSize text = some value) :
    value < wordSize := by
  unfold wordOf? at h
  dsimp only at h
  split at h
  · rename_i i hi
    cases h
    exact hset i (named?_mem hi)
  · split at h
    · cases h
      exact Word.nearest_lt hpos _
    · obtain ⟨z, -, rfl⟩ := Option.map_eq_some_iff.mp h
      exact Word.nearest_lt hpos z

end InstructionSet

namespace Assembly

theorem ofWord_eq_wordOf? {d : Dialect} {word : String}
    (hspace : ∀ c ∈ word.toList, Text.isWhitespace c = false)
    (hcolon : word.toList.head? ≠ some ':') (hdollar : word.toList.head? ≠ some '$')
    (hname : ∀ i, d.instructions.named? word = some i → Text.quotedChar? word.toList = none) :
    Meaning.ofWord d word = match d.instructions.wordOf? d.wordSize word with
      | some value => .value value
      | none => .unknown := by
  unfold InstructionSet.wordOf?
  rw [ofWord_eq hcolon hdollar, (Text.Trimmed.of_forall hspace).trim_eq]
  unfold Meaning.ofPlain
  dsimp only
  rw [String.ofList_toList]
  cases hnamed : d.instructions.named? word with
  | some i =>
    rw [hname i hnamed]
  | none =>
    cases Text.quotedChar? word.toList with
    | some c => rfl
    | none => cases Text.leadingInteger? word.toList <;> rfl

theorem parse_word_iff {d : Dialect} {word : String} {value? : Option Word}
    (hstrict : d.strict = false)
    (h : Meaning.ofWord d word = match value? with
      | some value => .value value
      | none => .unknown) (position : Position) :
    (∀ value, value? = some value ↔ Program.parse d [⟨.word word, position⟩] =
      .ok { code := [⟨.word value, none, position⟩] }) ∧
    (value? = none ↔ Program.parse d [⟨.word word, position⟩] = .ok {}) := by
  unfold Program.parse
  rw [List.foldlM_cons]
  cases value? with
  | some value =>
    rw [addToken_of_value h]
    refine ⟨fun other => ⟨?_, fun hparse => ?_⟩, ⟨fun hnone => (nomatch hnone), fun hparse => ?_⟩⟩
    · rintro ⟨⟩
      rfl
    · cases hparse
      rfl
    · cases hparse
  | none =>
    have dropped : Draft.addToken d {} ⟨.word word, position⟩ = .ok {} := by
      unfold Draft.addToken Draft.addWord
      dsimp only
      rw [h]
      exact if_neg (by rw [hstrict]; exact Bool.false_ne_true)
    rw [dropped]
    refine ⟨fun other => ⟨fun hsome => (nomatch hsome), fun hparse => ?_⟩,
      ⟨fun _ => rfl, fun _ => rfl⟩⟩
    cases hparse

end Assembly

theorem Machine.typeCell_eq_some_iff {arch : Architecture} {δ : Type} {m m' : Machine arch δ}
    {address : Nat} {text : String} {value : Word} :
    m.typeCell address text = some (value, m') ↔
      arch.instructions.wordOf? arch.wordSize text = some value ∧
      ∃ h : address < arch.memorySize,
        m' = { m with datapath.memory :=
          m.datapath.memory.set address (value % arch.wordSize) h } := by
  unfold Machine.typeCell Datapath.writeCell
  cases hword : arch.instructions.wordOf? arch.wordSize text with
  | none => simp
  | some word =>
    by_cases haddress : address < arch.memorySize
    · simp only [haddress, dif_pos, Option.some.injEq, Prod.mk.injEq, exists_true_left]
      constructor
      · rintro ⟨rfl, rfl⟩
        exact ⟨rfl, rfl⟩
      · rintro ⟨rfl, rfl⟩
        exact ⟨rfl, rfl⟩
    · simp [haddress]

namespace Terminal

variable {arch : Architecture}

/-- What an edit of a terminal does that tells `written` and leaves `t'` behind. -/
structure Edits (t : Terminal arch) (address : Nat) (text : String) (written : Option Word)
    (t' : Terminal arch) : Prop where
  written_iff : ∀ value, written = some value ↔
    arch.instructions.wordOf? arch.wordSize text = some value ∧ address < arch.memorySize
  stored : ∀ value, written = some value → value < arch.wordSize ∧
    ∃ h : address < arch.memorySize,
      t' = { t with machine.datapath.memory := t.machine.datapath.memory.set address value h }
  kept : written = none → t' = t

theorem edits_typeCell (hpos : 0 < arch.wordSize)
    (hset : ∀ i ∈ arch.instructions.toList, i.opcode < arch.wordSize) (t : Terminal arch)
    (address : Nat) (text : String) :
    t.Edits address text (t.typeCell address text).1 (t.typeCell address text).2 := by
  unfold typeCell
  cases hcell : t.machine.typeCell address text with
  | some outcome =>
    obtain ⟨value, m'⟩ := outcome
    obtain ⟨hword, haddress, rfl⟩ := Machine.typeCell_eq_some_iff.mp hcell
    have hvalue := InstructionSet.wordOf?_lt hpos hset hword
    refine ⟨fun other => ?_, fun other hother => ?_, fun hnone => nomatch hnone⟩
    · rw [hword]
      exact (and_iff_left haddress).symm
    · cases hother
      refine ⟨hvalue, haddress, ?_⟩
      dsimp only
      rw [Nat.mod_eq_of_lt hvalue]
  | none =>
    refine ⟨fun other => ⟨fun h => (nomatch h), ?_⟩, fun other h => (nomatch h), fun _ => rfl⟩
    rintro ⟨hword, haddress⟩
    have written := (Machine.typeCell_eq_some_iff (m := t.machine)).mpr ⟨hword, haddress, rfl⟩
    rw [hcell] at written
    cases written

/-- An edit on the spot keeps what is left of the machine, also if the write is refused. -/
def typeCellInPlace (address : Nat) (text : String) :
    StateM (Terminal arch) (Option Word) := fun t =>
  match InstructionSet.wordOf? arch.instructions arch.wordSize text with
  | none => (none, t)
  | some value =>
    match (Machine.onDatapath (Datapath.writeCellInPlace address value)).run t.machine with
    | .ok _ machine => (some value, { t with machine })
    | .error _ machine => (none, { t with machine })

theorem typeCellInPlace_run (t : Terminal arch) (address : Nat) (text : String) :
    (typeCellInPlace address text).run t = t.typeCell address text := by
  show typeCellInPlace address text t = _
  unfold typeCellInPlace typeCell Machine.typeCell
  cases InstructionSet.wordOf? arch.instructions arch.wordSize text with
  | none => rfl
  | some value =>
    have written := Datapath.writeCellInPlace_run address value t.machine.datapath
    dsimp only
    rw [Machine.onDatapath_run written]
    cases t.machine.datapath.writeCell address value <;> rfl

end Terminal

open Assembly in
/-- Editing a cell means what assembling the word means, and a refused edit changes nothing. Take
any accepted architecture. If no mnemonic has the form of a character, a word without white space
that is marked neither as a label nor as a buffer has a value as a cell exactly if a program of that
word alone is one code word with that value, and has none exactly if that program is empty. White
space around a text makes no difference to its value. An edit of any machine succeeds exactly if the
text has a value and the cell lies in memory, and then the value is a word, the cell holds it, and
all else is as it was. An edit of a terminal tells the same value, or whether there was one, and
changes nothing if it is refused, also if it is carried out on the spot. -/
theorem editing_exact {params : Parameters} {components : List Component}
    {instructions : List Instruction} {microcode : List NamedRoutine} {arch : Architecture}
    (accepted : Architecture.build params components instructions microcode = .ok arch) :
    let valueOf := arch.instructions.wordOf? arch.wordSize
    ((∀ i ∈ arch.instructions.toList, Text.quotedChar? i.name.toList = none) →
      ∀ (word : String) (position : Position),
        (∀ c ∈ word.toList, Text.isWhitespace c = false) →
        word.toList.head? ≠ some ':' → word.toList.head? ≠ some '$' →
        let program := Program.parse (.ofArchitecture arch false) [⟨.word word, position⟩]
        (∀ value, valueOf word = some value ↔
          program = .ok { code := [⟨.word value, none, position⟩] }) ∧
        (valueOf word = none ↔ program = .ok {})) ∧
    (∀ (text : String) (before after : List Char),
      (∀ c ∈ before, Text.isWhitespace c = true) → (∀ c ∈ after, Text.isWhitespace c = true) →
      valueOf (String.ofList (before ++ text.toList ++ after)) = valueOf text) ∧
    (∀ (δ : Type) (m m' : Machine arch δ) (address : Nat) (text : String) (value : Word),
      m.typeCell address text = some (value, m') ↔
        valueOf text = some value ∧ value < arch.wordSize ∧ ∃ h : address < arch.memorySize,
          m' = { m with datapath.memory := m.datapath.memory.set address value h }) ∧
    ∀ (t : Terminal arch) (address : Nat) (text : String),
      t.Edits address text (t.typeCell address text).1 (t.typeCell address text).2 ∧
      t.setCell address text =
        ((t.typeCell address text).1.isSome, (t.typeCell address text).2) ∧
      (Terminal.typeCellInPlace address text).run t = t.typeCell address text := by
  have described := Architecture.build_ok_iff.mp accepted
  have hpos : 0 < arch.wordSize := arch.valid.wordSize_pos
  have hset : ∀ i ∈ arch.instructions.toList, i.opcode < arch.wordSize := by
    have hlt := described.opcode_lt
    rwa [← described.params_eq] at hlt
  refine ⟨fun hplain word position hspace hcolon hdollar => ?_,
    fun text before after hbefore hafter => InstructionSet.wordOf?_append hbefore hafter text,
    fun δ m m' address text value => ?_,
    fun t address text => ⟨t.edits_typeCell hpos hset address text, rfl,
      t.typeCellInPlace_run address text⟩⟩
  · have hname : ∀ i, arch.instructions.named? word = some i →
        Text.quotedChar? word.toList = none := by
      intro i hi
      have name := (InstructionSet.of_named? described.instructions hi).2
      have plain := hplain i (InstructionSet.named?_mem hi)
      rw [name, Text.lower, String.toList_ofList] at plain
      by_contra hquoted
      obtain ⟨c, hc⟩ := Option.ne_none_iff_exists'.mp hquoted
      rw [Text.quotedChar?_map_toLower hc] at plain
      cases plain
    have meaning := ofWord_eq_wordOf? (d := .ofArchitecture arch false) hspace hcolon hdollar hname
    exact parse_word_iff rfl meaning position
  · rw [Machine.typeCell_eq_some_iff]
    constructor
    · rintro ⟨hvalue, haddress, rfl⟩
      have hlt := InstructionSet.wordOf?_lt hpos hset hvalue
      refine ⟨hvalue, hlt, haddress, ?_⟩
      rw [Nat.mod_eq_of_lt hlt]
    · rintro ⟨hvalue, hlt, haddress, rfl⟩
      refine ⟨hvalue, haddress, ?_⟩
      rw [Nat.mod_eq_of_lt hlt]

theorem editing_exact_quoted :
    let m : Machine Standard.defaultArchitecture ConsoleDevice := .new _
    Architecture.standard {} = .ok Standard.defaultArchitecture ∧
    Assembly.Program.parse (.ofArchitecture Standard.defaultArchitecture false)
      [⟨.word "'h'", ⟨1, 1⟩⟩] = .ok { code := [⟨.word 104, none, ⟨1, 1⟩⟩] } ∧
    m.typeCell 255 "\t'h' " = some (104,
      { m with datapath.memory := m.datapath.memory.set 255 104 (by decide) }) := by
  have ⟨word, spaced, edit, _⟩ := editing_exact Standard.standard_default
  have plain : ∀ i ∈ Standard.instructionSet.toList, Text.quotedChar? i.name.toList = none := by
    have standard : ∀ i ∈ standardInstructions, Text.quotedChar? i.name.toList = none := by decide
    exact fun i hi => standard i (Standard.mem_standardInstructions i hi)
  have value : Standard.instructionSet.wordOf? 256 "'h'" = some 104 := by decide
  have around := spaced "'h'" ['\t'] [' '] (List.all_eq_true.mp (by decide))
    (List.all_eq_true.mp (by decide))
  refine ⟨Standard.standard_default, ?_, ?_⟩
  · have bare : ∀ c ∈ "'h'".toList, Text.isWhitespace c = false :=
      List.all_iff_forall_prop.mp (by decide)
    exact ((word plain "'h'" ⟨1, 1⟩ bare (by decide) (by decide)).1 104).mp value
  · exact (edit _ _ _ 255 _ 104).mpr ⟨around.trans value, by decide, by decide, rfl⟩

end BusMachine
