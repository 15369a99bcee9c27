import BusMachine.Assembly.Layout
import Mathlib.Algebra.GroupWithZero.Nat

/-!
Where the words of a program lie, said without a table: a code word at its index plus 1, a data
block behind all code and the blocks before it. The layout of a program agrees with this for every
symbol, however often it is declared.
-/

namespace BusMachine.Assembly

namespace Program

def dataLength (data : List DataBlock) : Nat := (data.map fun block => block.words.length).sum

@[simp] theorem dataLength_nil : dataLength [] = 0 := rfl

@[simp] theorem dataLength_cons (block : DataBlock) (rest : List DataBlock) :
    dataLength (block :: rest) = block.words.length + dataLength rest := by
  unfold dataLength
  rw [List.map_cons, List.sum_cons]

theorem dataLength_append (first second : List DataBlock) :
    dataLength (first ++ second) = dataLength first + dataLength second := by
  unfold dataLength
  rw [List.map_append, List.sum_append]

def blockStart (p : Program) (j : Nat) : Nat := 1 + p.code.length + dataLength (p.data.take j)

def labelAddress? (p : Program) (symbol : Symbol) : Option Nat :=
  (p.code.findIdx? fun word => word.label == some symbol).map (· + 1)

def blockAddress? (p : Program) (symbol : Symbol) : Option Nat :=
  (p.data.findIdx? fun block => block.symbol == symbol).map p.blockStart

/-- The address that a symbol is declared to stand for. -/
def declaredAddress? (p : Program) (symbol : Symbol) : Option Nat :=
  (p.labelAddress? symbol).or (p.blockAddress? symbol)

theorem imageLength_eq (p : Program) :
    p.imageLength = 1 + p.code.length + dataLength p.data := by
  have folded : ∀ (data : List DataBlock) (start : Nat),
      data.foldl (fun length block => length + block.words.length) start =
        start + dataLength data := by
    intro data
    induction data with
    | nil => exact fun start => rfl
    | cons block rest ih =>
      intro start
      simp only [List.foldl_cons, ih, dataLength_cons]
      omega
  unfold imageLength codeEnd
  rw [folded]
  omega

theorem codeEnd_le_imageLength (p : Program) : p.codeEnd ≤ p.imageLength := by
  rw [p.imageLength_eq, codeEnd]
  omega

theorem exists_code_of_labelAddress? {p : Program} {symbol : Symbol} {address : Nat}
    (h : p.labelAddress? symbol = some address) :
    ∃ k word, p.code[k]? = some word ∧ word.label = some symbol ∧ address = k + 1 := by
  obtain ⟨k, hk, rfl⟩ := Option.map_eq_some_iff.mp h
  have ⟨hlt, hlabel, _⟩ := List.findIdx?_eq_some_iff_getElem.mp hk
  exact ⟨k, _, List.getElem?_eq_getElem hlt, eq_of_beq hlabel, rfl⟩

theorem exists_block_of_blockAddress? {p : Program} {symbol : Symbol} {address : Nat}
    (h : p.blockAddress? symbol = some address) :
    ∃ (j : Nat) (block : DataBlock), p.data[j]? = some block ∧ block.symbol = symbol ∧
      address = p.blockStart j := by
  obtain ⟨j, hj, rfl⟩ := Option.map_eq_some_iff.mp h
  have ⟨hlt, hsymbol, _⟩ := List.findIdx?_eq_some_iff_getElem.mp hj
  exact ⟨j, _, List.getElem?_eq_getElem hlt, eq_of_beq hsymbol, rfl⟩

theorem blockAddress?_user {p : Program} (h : ∀ block ∈ p.data, ∀ name, block.symbol ≠ .user name)
    (name : String) : p.blockAddress? (.user name) = none := by
  unfold blockAddress?
  rw [Option.map_eq_none_iff, List.findIdx?_eq_none_iff]
  intro block hblock
  exact beq_false_of_ne (h block hblock name)

theorem lookup_labelsFrom (code : List CodeWord) (symbol : Symbol) (address : Nat) :
    (labelsFrom address code).lookup symbol =
      (code.findIdx? fun word => word.label == some symbol).map (· + address) := by
  induction code generalizing address with
  | nil => rfl
  | cons word rest ih =>
    have later := ih (address + 1)
    have shifted : ∀ i : Option Nat,
        (i.map (· + 1)).map (· + address) = i.map (· + (address + 1)) := by
      intro i
      rw [Option.map_map]
      congr 1
      funext n
      simp only [Function.comp_apply]
      omega
    rw [labelsFrom, List.findIdx?_cons]
    cases hlabel : word.label with
    | none =>
      simp only [reduceCtorEq, beq_iff_eq, if_false, shifted]
      exact later
    | some label =>
      by_cases heq : label = symbol
      · simp [heq]
      · have hne : (symbol == label) = false := by simpa using Ne.symm heq
        have hne' : (some label == some symbol) = false := by simpa using heq
        simp only [List.lookup_cons, hne, hne', Bool.false_eq_true, if_false, shifted]
        exact later

theorem lookup_placeBlocks (data : List DataBlock) (symbol : Symbol) (start : Nat) :
    ((placeBlocks start data).map fun block => (block.symbol, block.start)).lookup symbol =
      (data.findIdx? fun block => block.symbol == symbol).map
        fun j => start + dataLength (data.take j) := by
  induction data generalizing start with
  | nil => rfl
  | cons block rest ih =>
    have later := ih (start + block.words.length)
    have shifted : ∀ i : Option Nat,
        (i.map (· + 1)).map (fun j => start + dataLength ((block :: rest).take j)) =
          i.map fun j => start + block.words.length + dataLength (rest.take j) := by
      intro i
      rw [Option.map_map]
      congr 1
      funext j
      simp only [Function.comp_apply, List.take_succ_cons, dataLength_cons]
      omega
    rw [placeBlocks, List.map_cons, List.findIdx?_cons]
    by_cases heq : block.symbol = symbol
    · simp [heq]
    · have hne : (symbol == block.symbol) = false := by simpa using Ne.symm heq
      have hne' : (block.symbol == symbol) = false := by simpa using heq
      simp only [List.lookup_cons, hne, hne', Bool.false_eq_true, if_false, shifted]
      exact later

end Program

namespace Layout

theorem getElem?_indexOf (declarations : List (Symbol × Nat)) (symbol : Symbol) :
    (indexOf declarations)[symbol]? = declarations.lookup symbol := by
  have folded : ∀ (declarations : List (Symbol × Nat)) (index : Std.HashMap Symbol Nat),
      (declarations.foldl (fun index entry => index.insertIfNew entry.1 entry.2) index)[symbol]? =
        index[symbol]?.or (declarations.lookup symbol) := by
    intro declarations
    induction declarations with
    | nil =>
      intro index
      simp
    | cons declaration rest ih =>
      intro index
      rw [List.foldl_cons, ih, Std.HashMap.getElem?_insertIfNew, List.lookup_cons]
      by_cases heq : declaration.1 = symbol
      · subst heq
        by_cases hmem : declaration.1 ∈ index
        · simp [hmem]
        · simp [hmem]
      · have hne : (symbol == declaration.1) = false := by simpa using Ne.symm heq
        simp [heq, hne]
  have fromEmpty := folded declarations ∅
  rw [Std.HashMap.getElem?_empty, Option.none_or] at fromEmpty
  exact fromEmpty

theorem address?_ofProgram (p : Program) (symbol : Symbol) :
    (ofProgram p).address? symbol = p.declaredAddress? symbol := by
  have hstart : p.codeEnd = 1 + p.code.length := Nat.add_comm _ _
  unfold address? ofProgram
  rw [getElem?_indexOf, List.lookup_append, Program.lookup_labelsFrom,
    Program.lookup_placeBlocks, hstart]
  rfl

end Layout

end BusMachine.Assembly
