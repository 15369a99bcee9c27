import BusMachine.Proofs.Assembly.Annotations

/-!
Annotations as the inverse of a layout. From an address they lead back to the first declared symbol
that stands for it, and from its text to the address again. A cell leads to the block that has it:
empty blocks, which begin where another block does, are never found in place of it.
-/

namespace BusMachine

namespace Annotations

variable {a : Annotations} {label : String} {address : Word}

theorem label?_of_address? (h : a.address? label = some address) :
    a.label? address = some label := by
  obtain ⟨⟨_, text⟩, hfind, rfl⟩ := Option.map_eq_some_iff.mp h
  have found := List.find?_some hfind
  obtain rfl : text = label := eq_of_beq found
  exact SparseTable.get?_eq_some_iff.mpr (List.mem_of_find?_eq_some hfind)

theorem exists_address? (h : a.label? address = some label) :
    ∃ lowest, a.address? label = some lowest := by
  have hmem := SparseTable.get?_eq_some_iff.mp h
  have found : (a.labels.entries.find? fun entry => entry.2 == label).isSome = true :=
    List.find?_isSome.mpr ⟨_, hmem, beq_self_eq_true label⟩
  obtain ⟨entry, hfind⟩ := Option.isSome_iff_exists.mp found
  exact ⟨entry.1, Option.map_eq_some_iff.mpr ⟨entry, hfind, rfl⟩⟩

end Annotations

namespace Assembly

namespace Program

def symbols (p : Program) : List Symbol :=
  p.code.filterMap CodeWord.label ++ p.data.map DataBlock.symbol

/-- The symbols with a declaration before the first one of a symbol. -/
def declaredBefore (p : Program) (symbol : Symbol) : List Symbol :=
  p.symbols.takeWhile (· != symbol)

theorem map_fst_labelsFrom (address : Nat) (code : List CodeWord) :
    (labelsFrom address code).map Prod.fst = code.filterMap CodeWord.label := by
  induction code generalizing address with
  | nil => rfl
  | cons word rest ih =>
    rw [labelsFrom, List.filterMap_cons]
    cases word.label with
    | none => exact ih (address + 1)
    | some label => exact congrArg (label :: ·) (ih (address + 1))

theorem map_symbol_placeBlocks (start : Nat) (data : List DataBlock) :
    (placeBlocks start data).map PlacedBlock.symbol = data.map DataBlock.symbol := by
  induction data generalizing start with
  | nil => rfl
  | cons block rest ih => exact congrArg (block.symbol :: ·) (ih (start + block.words.length))

end Program

namespace Layout

variable {p : Program} {symbol : Symbol} {address : Nat}

theorem map_fst_declarations (p : Program) :
    (ofProgram p).declarations.map Prod.fst = p.symbols := by
  have blocks := Program.map_symbol_placeBlocks p.codeEnd p.data
  show (Program.labelsFrom 1 p.code ++ (Program.placeBlocks p.codeEnd p.data).map
    fun block => (block.symbol, block.start)).map Prod.fst = _
  rw [List.map_append, Program.map_fst_labelsFrom, List.map_map]
  exact congrArg _ blocks

theorem mem_symbols (h : (ofProgram p).address? symbol = some address) : symbol ∈ p.symbols := by
  rw [address?_eq_lookup] at h
  obtain ⟨before, after, hsplit, -⟩ := List.lookup_eq_some_iff.mp h
  rw [← map_fst_declarations, hsplit]
  simp

theorem label?_ofProgram (p : Program) (hmax : address ≤ maxWord) :
    (ofProgram p).annotations.label? address = (p.symbols.find? fun symbol =>
      (ofProgram p).address? symbol == some address).map Symbol.text := by
  rw [label?_annotations _ hmax, ← map_fst_declarations, List.find?_map, Option.map_map]
  rfl

theorem address?_of_label? (h : (ofProgram p).annotations.label? address = some symbol.text) :
    (ofProgram p).address? symbol = some address := by
  rw [label?_eq_find?] at h
  obtain ⟨declaration, hfind, htext⟩ := Option.map_eq_some_iff.mp h
  have found := List.find?_some hfind
  rw [← Symbol.text_injective htext]
  exact (of_decide_eq_true found).1

theorem address?_annotations_iff :
    (ofProgram p).annotations.address? symbol.text = some address ↔
      (ofProgram p).annotations.label? address = some symbol.text := by
  refine ⟨Annotations.label?_of_address?, fun h => ?_⟩
  obtain ⟨lowest, hlowest⟩ := Annotations.exists_address? h
  have same := (address?_of_label? (Annotations.label?_of_address? hlowest)).symm.trans
    (address?_of_label? h)
  rw [hlowest, same]

theorem find?_eq_some_iff_takeWhile {symbols : List Symbol} (P : Symbol → Bool)
    (hmem : symbol ∈ symbols) (hsymbol : P symbol = true) :
    symbols.find? P = some symbol ↔ ∀ other ∈ symbols.takeWhile (· != symbol), P other = false := by
  induction symbols with
  | nil => cases hmem
  | cons first rest ih =>
    by_cases heq : first = symbol
    · simp [heq, hsymbol]
    · have later := ih (List.mem_of_ne_of_mem (Ne.symm heq) hmem)
      cases hfirst : P first with
      | true => simp [hfirst, heq]
      | false => simp [hfirst, heq, later]

theorem address?_annotations_iff_declaredBefore (h : (ofProgram p).address? symbol = some address)
    (hmax : address ≤ maxWord) :
    (ofProgram p).annotations.address? symbol.text = some address ↔
      ∀ other ∈ p.declaredBefore symbol, (ofProgram p).address? other ≠ some address := by
  have own : ((ofProgram p).address? symbol == some address) = true := beq_iff_eq.mpr h
  have first := find?_eq_some_iff_takeWhile
    (fun symbol => (ofProgram p).address? symbol == some address) (mem_symbols h) own
  have text := (Option.map_injective Symbol.text_injective).eq_iff (b := some symbol)
    (a := p.symbols.find? fun symbol => (ofProgram p).address? symbol == some address)
  rw [address?_annotations_iff, label?_ofProgram p hmax]
  refine (text.trans first).trans (forall₂_congr fun other _ => ?_)
  exact beq_eq_false_iff_ne

theorem address?_annotations (hdata : ∀ block ∈ p.data, block.words ≠ [])
    (h : (ofProgram p).address? symbol = some address) (hmax : address ≤ maxWord) :
    (ofProgram p).annotations.address? symbol.text = some address := by
  refine (address?_annotations_iff_declaredBefore h hmax).mpr fun other hother hsame => ?_
  rw [address?_ofProgram] at h hsame
  have differ := List.all_eq_true.mp List.all_takeWhile other hother
  exact bne_iff_ne.mp differ (Program.declaredAddress?_injective hdata hsame h)

end Layout

/-- Block `j` of a program has a cell at an address. -/
structure Program.Includes (p : Program) (j : Nat) (block : DataBlock) (address : Nat) : Prop where
  getElem? : p.data[j]? = some block
  start_le : p.blockStart j ≤ address
  lt_end : address < p.blockStart j + block.words.length

def DataBlock.extent (block : DataBlock) : DataExtent :=
  { name := block.symbol.text, size := block.words.length }

namespace Layout

variable {p : Program} {address : Nat}

theorem exists_of_mem_placeBlocks {start : Nat} {data : List DataBlock} {placed : PlacedBlock}
    (h : placed ∈ Program.placeBlocks start data) :
    ∃ (j : Nat) (block : DataBlock), data[j]? = some block ∧ placed =
      { symbol := block.symbol, start := start + Program.dataLength (data.take j),
        size := block.words.length } := by
  induction data generalizing start with
  | nil => cases h
  | cons first rest ih =>
    rw [Program.placeBlocks, List.mem_cons] at h
    obtain rfl | h := h
    · exact ⟨0, first, rfl, rfl⟩
    · obtain ⟨j, block, hj, rfl⟩ := ih h
      refine ⟨j + 1, block, hj, ?_⟩
      rw [List.take_succ_cons, Program.dataLength_cons, Nat.add_assoc]

theorem exists_of_get?_extent {blocks : List PlacedBlock} {data : SparseTable DataExtent}
    {start : Nat} {extent : DataExtent}
    (h : (blocks.foldl annotations.extent data).get? start = some extent) :
    data.get? start = some extent ∨ ∃ placed ∈ blocks, placed.start = start ∧
      extent = { name := placed.symbol.text, size := placed.size } := by
  induction blocks generalizing data with
  | nil => exact .inl h
  | cons first rest ih =>
    -- a block replaces an earlier one with its start, so that the later blocks are asked first
    obtain hdata | ⟨placed, hplaced, hextent⟩ := ih h
    · unfold annotations.extent at hdata
      split at hdata
      · rw [SparseTable.get?_insert] at hdata
        split at hdata
        · next hstart =>
          exact .inr ⟨first, List.mem_cons_self, hstart, (Option.some.inj hdata).symm⟩
        · exact .inl hdata
      · exact .inl hdata
    · exact .inr ⟨placed, List.mem_cons_of_mem _ hplaced, hextent⟩

theorem exists_of_get?_data {start : Nat} {extent : DataExtent}
    (h : (ofProgram p).annotations.data.get? start = some extent) :
    ∃ (j : Nat) (block : DataBlock), p.data[j]? = some block ∧ start = p.blockStart j ∧
      extent = block.extent := by
  obtain hempty | ⟨placed, hplaced, rfl, rfl⟩ := exists_of_get?_extent h
  · cases hempty
  · obtain ⟨j, block, hj, rfl⟩ := exists_of_mem_placeBlocks hplaced
    refine ⟨j, block, hj, ?_, rfl⟩
    show p.codeEnd + _ = p.blockStart j
    unfold Program.blockStart Program.codeEnd
    omega

theorem dataAround?_eq_some_iff (hmax : address ≤ maxWord) {start : Nat} {extent : DataExtent} :
    (ofProgram p).annotations.dataAround? address = some (start, extent) ↔
      ∃ j block, p.Includes j block address ∧ start = p.blockStart j ∧ extent = block.extent := by
  constructor
  · intro h
    unfold Annotations.dataAround? at h
    cases hfloor : (ofProgram p).annotations.data.floor? address with
    | none => simp [hfloor] at h
    | some entry =>
      obtain ⟨below, found⟩ := entry
      simp only [hfloor, Option.ite_none_right_eq_some, Option.some.injEq, Prod.mk.injEq] at h
      obtain ⟨hsize, rfl, rfl⟩ := h
      obtain ⟨hget, hle⟩ := SparseTable.get?_of_floor? hfloor
      obtain ⟨j, block, hj, rfl, rfl⟩ := exists_of_get?_data hget
      have inside : address - p.blockStart j < block.words.length := hsize
      exact ⟨j, block, ⟨hj, hle, by omega⟩, rfl, rfl⟩
  · rintro ⟨j, block, included, rfl, rfl⟩
    exact dataAround?_annotations included.getElem? included.start_le included.lt_end hmax

theorem dataAround?_eq_none_iff (hmax : address ≤ maxWord) :
    (ofProgram p).annotations.dataAround? address = none ↔
      ∀ j block, ¬ p.Includes j block address := by
  constructor
  · intro h j block included
    have found := (dataAround?_eq_some_iff hmax).mpr ⟨j, block, included, rfl, rfl⟩
    rw [h] at found
    cases found
  · intro h
    refine Option.eq_none_iff_forall_ne_some.mpr fun ⟨start, extent⟩ hsome => ?_
    obtain ⟨j, block, included, -⟩ := (dataAround?_eq_some_iff hmax).mp hsome
    exact h j block included

end Layout

/-- The annotations of a program are the inverse of its layout: the label of a cell is the first
declared symbol with its address, the text of a symbol leads back to its address unless an earlier
symbol has the same, and a cell belongs to the block that has it. -/
theorem annotations_inverse (p : Program) :
    (∀ address ≤ maxWord, (Layout.ofProgram p).annotations.label? address =
      (p.symbols.find? fun symbol =>
        (Layout.ofProgram p).address? symbol == some address).map Symbol.text) ∧
    Function.Injective Symbol.text ∧
    (∀ symbol address, (Layout.ofProgram p).address? symbol = some address → address ≤ maxWord →
      ((Layout.ofProgram p).annotations.address? symbol.text = some address ↔
        ∀ other ∈ p.declaredBefore symbol,
          (Layout.ofProgram p).address? other ≠ some address) ∧
      ((∀ block ∈ p.data, block.words ≠ []) →
        (Layout.ofProgram p).annotations.address? symbol.text = some address)) ∧
    ∀ address ≤ maxWord,
      (∀ start extent,
        (Layout.ofProgram p).annotations.dataAround? address = some (start, extent) ↔
          ∃ j block, p.Includes j block address ∧ start = p.blockStart j ∧
            extent = { name := block.symbol.text, size := block.words.length }) ∧
      ((Layout.ofProgram p).annotations.dataAround? address = none ↔
        ∀ j block, ¬ p.Includes j block address) := by
  refine ⟨fun address hmax => Layout.label?_ofProgram p hmax, Symbol.text_injective,
    fun symbol address h hmax => ⟨?_, fun hdata => ?_⟩, fun address hmax => ⟨?_, ?_⟩⟩
  · exact Layout.address?_annotations_iff_declaredBefore h hmax
  · exact Layout.address?_annotations hdata h hmax
  · exact fun start extent => Layout.dataAround?_eq_some_iff hmax
  · exact Layout.dataAround?_eq_none_iff hmax

def crowded : Program where
  code := [⟨.word 7, some (.user "a"), ⟨1, 1⟩⟩]
  data := [⟨.buffer "e", [], ⟨1, 5⟩⟩, ⟨.string 0, [97, 0], ⟨1, 11⟩⟩, ⟨.buffer "z", [], ⟨1, 15⟩⟩]

theorem annotations_inverse_crowded :
    (Layout.ofProgram crowded).annotations.address? "$e" = some 2 ∧
      (Layout.ofProgram crowded).annotations.address? "s0" ≠ some 2 ∧
      (Layout.ofProgram crowded).annotations.dataAround? 3 = some (2, ⟨"s0", 2⟩) ∧
      (Layout.ofProgram crowded).annotations.dataAround? 4 = none := by
  have empty : (Layout.ofProgram crowded).address? (.buffer "e") = some 2 := by
    rw [Layout.address?_ofProgram]
    decide
  have string : (Layout.ofProgram crowded).address? (.string 0) = some 2 := by
    rw [Layout.address?_ofProgram]
    decide
  have buffers : ∀ other ∈ crowded.declaredBefore (.buffer "e"),
      (Layout.ofProgram crowded).address? other ≠ some 2 := by
    have only : crowded.declaredBefore (.buffer "e") = [.user "a"] := by decide
    rw [only, List.forall_mem_singleton, Layout.address?_ofProgram]
    decide
  have outside : ∀ j block, ¬ crowded.Includes j block 4 := fun j block h => by
    have bound := Program.blockStart_add_le_imageLength h.getElem?
    have length : crowded.imageLength = 4 := rfl
    have inside := h.lt_end
    omega
  have ⟨_, _, found, data⟩ := annotations_inverse crowded
  refine ⟨(found _ 2 empty (by decide)).1.mpr buffers, fun h => ?_, ?_, ?_⟩
  · exact (found _ 2 string (by decide)).1.mp h (.buffer "e") (by decide) empty
  · exact ((data 3 (by decide)).1 _ _).mpr
      ⟨1, ⟨.string 0, [97, 0], ⟨1, 11⟩⟩, ⟨rfl, by decide, by decide⟩, rfl, rfl⟩
  · exact (data 4 (by decide)).2.mpr outside

end Assembly

end BusMachine
