import BusMachine.Listing

/-!
The rows of a listing one by one: the row of a cell depends on the cell and on the operands that are
expected after the cells before it.
-/

namespace BusMachine

def CellMeaning.isOpcode : CellMeaning → Bool
  | opcode _ => true
  | _ => false

def CellMeaning.isData : CellMeaning → Bool
  | data _ => true
  | _ => false

namespace Listing

/-- The operands that are expected behind cells, given those expected at the first of them. -/
def expectedAfter (l : Listing) (codeEnd address : Nat) (expected : List OperandKind) :
    List Word → List OperandKind
  | [] => expected
  | value :: rest =>
    l.expectedAfter codeEnd (address + 1) (l.meaning codeEnd address value expected).2 rest

/-- The operands that are expected at a cell of a memory. -/
def expectedAt (l : Listing) (codeEnd : Nat) (memory : List Word) (address : Nat) :
    List OperandKind :=
  l.expectedAfter codeEnd 0 [] (memory.take address)

variable (l : Listing) (codeEnd : Nat)

theorem expectedAfter_append (address : Nat) (expected : List OperandKind)
    (first second : List Word) :
    l.expectedAfter codeEnd address expected (first ++ second) =
      l.expectedAfter codeEnd (address + first.length)
        (l.expectedAfter codeEnd address expected first) second := by
  induction first generalizing address expected with
  | nil => rfl
  | cons value rest ih =>
    rw [List.cons_append, expectedAfter, ih, expectedAfter, List.length_cons, Nat.add_assoc,
      Nat.add_comm 1]

theorem expectedAt_succ {memory : List Word} {address : Nat} {value : Word}
    (h : memory[address]? = some value) :
    l.expectedAt codeEnd memory (address + 1) =
      (l.meaning codeEnd address value (l.expectedAt codeEnd memory address)).2 := by
  have hlt := (List.getElem?_eq_some_iff.mp h).1
  unfold expectedAt
  rw [List.take_add_one, h, Option.toList_some, expectedAfter_append, Nat.zero_add,
    List.length_take, Nat.min_eq_left (Nat.le_of_lt hlt)]
  rfl

theorem getElem?_collectRows (address : Nat) (expected : List OperandKind) (memory : List Word)
    (k : Nat) :
    (l.collectRows codeEnd [] address expected memory)[k]? = memory[k]?.map fun value =>
      { address := address + k, value, label := l.label? (address + k)
        meaning := (l.meaning codeEnd (address + k) value
          (l.expectedAfter codeEnd address expected (memory.take k))).1 } := by
  induction memory generalizing address expected k with
  | nil => rfl
  | cons value rest ih =>
    simp only [collectRows]
    rw [collectRows_eq_append]
    cases k with
    | zero => rfl
    | succ k =>
      have later := ih (address + 1) (l.meaning codeEnd address value expected).2 k
      rw [Nat.add_right_comm, Nat.add_assoc] at later
      exact later

theorem length_rows (memory : List Word) : (l.rows memory).length = memory.length := by
  have collected : ∀ (codeEnd : Nat) (done : List ListingRow) (address : Nat)
      (expected : List OperandKind), (l.collectRows codeEnd done address expected memory).length =
        done.length + memory.length := by
    induction memory with
    | nil =>
      intro codeEnd done address expected
      rw [collectRows, List.length_reverse, List.length_nil, Nat.add_zero]
    | cons value rest ih =>
      intro codeEnd done address expected
      rw [collectRows, ih, List.length_cons, List.length_cons]
      omega
  exact (collected _ _ _ _).trans (Nat.zero_add _)

variable {l codeEnd}

theorem getElem?_rows {annotations : Annotations} (h : l.annotations = some annotations)
    (memory : List Word) (k : Nat) :
    (l.rows memory)[k]? = memory[k]?.map fun value =>
      { address := k, value, label := l.label? k
        meaning := (l.meaning annotations.codeEnd k value
          (l.expectedAt annotations.codeEnd memory k)).1 } := by
  unfold rows
  rw [h, getElem?_collectRows]
  simp only [Nat.zero_add]
  rfl

theorem getElem?_rows_of_none (h : l.annotations = none) {memory : List Word} {k : Nat}
    {value : Word} (hcell : memory[k]? = some value) :
    (l.rows memory)[k]? = some
      { address := k, value, label := l.label? k
        meaning := (l.meaning memory.length k value (l.expectedAt memory.length memory k)).1 } := by
  unfold rows
  rw [h, getElem?_collectRows, hcell]
  simp only [Nat.zero_add]
  rfl

theorem meaning_of_expected {address : Nat} {value : Word} {kind : OperandKind}
    {rest : List OperandKind} (h : address < codeEnd) :
    l.meaning codeEnd address value (kind :: rest) =
      (.operand kind (l.target? kind value), rest) := by
  unfold meaning
  rw [if_neg (Nat.not_le_of_lt h)]

theorem meaning_of_decode? {address : Nat} {value : Word} {i : Instruction} (h : address < codeEnd)
    (hi : l.instructions.decode? value = some i) :
    l.meaning codeEnd address value [] = (.opcode i.name, i.operands) := by
  unfold meaning
  rw [if_neg (Nat.not_le_of_lt h), hi]

theorem meaning_of_data {address : Nat} {value : Word} {expected : List OperandKind}
    (h : codeEnd ≤ address) :
    l.meaning codeEnd address value expected = (.data (l.dataName? address), []) := by
  unfold meaning
  rw [if_pos h]

theorem isData_meaning (address : Nat) (value : Word) (expected : List OperandKind) :
    (l.meaning codeEnd address value expected).1.isData = true ↔ codeEnd ≤ address := by
  by_cases h : codeEnd ≤ address
  · rw [meaning_of_data h]
    exact iff_of_true rfl h
  · refine iff_of_false ?_ h
    unfold meaning
    rw [if_neg h]
    cases expected with
    | cons kind rest => exact Bool.false_ne_true
    | nil => cases l.instructions.decode? value <;> exact Bool.false_ne_true

theorem expectedAt_add {memory : List Word} {address : Nat} {j : Nat}
    (hcode : address + j ≤ codeEnd) (hmemory : address + j ≤ memory.length)
    (hj : j ≤ (l.expectedAt codeEnd memory address).length) :
    l.expectedAt codeEnd memory (address + j) =
      (l.expectedAt codeEnd memory address).drop j := by
  induction j with
  | zero => rfl
  | succ j ih =>
    have before := ih (by omega) (by omega) (by omega)
    have cell := List.getElem?_eq_getElem (show address + j < memory.length by omega)
    rw [← Nat.add_assoc, expectedAt_succ l codeEnd cell, before,
      List.drop_eq_getElem_cons (by omega), meaning_of_expected (by omega)]

def opcodeRows (l : Listing) (memory : List Word) : List ListingRow :=
  (l.rows memory).filter fun row => row.meaning.isOpcode

def opcodesBefore (l : Listing) (memory : List Word) (address : Nat) : Nat :=
  ((l.rows memory).take address).countP fun row => row.meaning.isOpcode

variable {memory : List Word} {address : Nat} {row : ListingRow}

theorem opcodesBefore_succ (h : (l.rows memory)[address]? = some row) :
    l.opcodesBefore memory (address + 1) =
      l.opcodesBefore memory address + if row.meaning.isOpcode then 1 else 0 := by
  unfold opcodesBefore
  rw [List.take_add_one, h, List.countP_append, Option.toList_some, List.countP_singleton]

theorem getElem?_opcodeRows (h : (l.rows memory)[address]? = some row)
    (hrow : row.meaning.isOpcode = true) :
    (l.opcodeRows memory)[l.opcodesBefore memory address]? = some row := by
  obtain ⟨hlt, hrow'⟩ := List.getElem?_eq_some_iff.mp h
  have split : l.rows memory =
      (l.rows memory).take address ++ row :: (l.rows memory).drop (address + 1) := by
    rw [← hrow', ← List.drop_eq_getElem_cons hlt, List.take_append_drop]
  have filtered : l.opcodeRows memory =
      ((l.rows memory).take address).filter (fun row => row.meaning.isOpcode) ++
        row :: ((l.rows memory).drop (address + 1)).filter fun row => row.meaning.isOpcode := by
    unfold opcodeRows
    refine (congrArg _ split).trans ?_
    rw [List.filter_append, List.filter_cons, if_pos hrow]
  unfold opcodesBefore
  rw [filtered, List.countP_eq_length_filter, List.getElem?_append_right (Nat.le_refl _),
    Nat.sub_self, List.getElem?_cons_zero]

theorem expectedAt_instruction (hl : l.annotations = none) {i : Instruction} {opcode : Word}
    (hcell : memory[address]? = some opcode) (hi : l.instructions.decode? opcode = some i)
    (hexpected : l.expectedAt memory.length memory address = [])
    (hend : address + i.length ≤ memory.length) :
    l.expectedAt memory.length memory (address + i.length) = [] ∧
      l.opcodesBefore memory (address + i.length) = l.opcodesBefore memory address + 1 := by
  unfold Instruction.length at hend ⊢
  rw [← Nat.add_assoc] at hend ⊢
  have decoded : l.meaning memory.length address opcode [] = (.opcode i.name, i.operands) :=
    meaning_of_decode? (by omega) hi
  have operands : l.expectedAt memory.length memory (address + 1) = i.operands := by
    rw [expectedAt_succ l memory.length hcell, hexpected, decoded]
  have expected : ∀ j ≤ i.operands.length,
      l.expectedAt memory.length memory (address + 1 + j) = i.operands.drop j := by
    intro j hj
    have inside : address + 1 + j ≤ memory.length := by omega
    rw [← operands] at hj ⊢
    exact expectedAt_add inside inside hj
  refine ⟨by rw [expected _ (Nat.le_refl _), List.drop_length], ?_⟩
  have operand : ∀ j ≤ i.operands.length,
      l.opcodesBefore memory (address + 1 + j) = l.opcodesBefore memory (address + 1) := by
    intro j hj
    induction j with
    | zero => rfl
    | succ j ih =>
      have cell := List.getElem?_eq_getElem (show address + 1 + j < memory.length by omega)
      have row := getElem?_rows_of_none hl cell
      rw [expected j (by omega), List.drop_eq_getElem_cons (by omega),
        meaning_of_expected (by omega)] at row
      rw [← Nat.add_assoc, opcodesBefore_succ row, ih (by omega)]
      rfl
  have row := getElem?_rows_of_none hl hcell
  rw [hexpected, decoded] at row
  rw [operand _ (Nat.le_refl _), opcodesBefore_succ row]
  rfl

end Listing

end BusMachine
