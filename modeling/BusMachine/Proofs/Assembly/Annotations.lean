import BusMachine.Proofs.Assembly.Addresses

/-!
The annotations of a program: the label of a cell is that of the first declaration there, and a data
cell belongs to the block that it lies in.
-/

namespace BusMachine.Assembly

theorem Symbol.text_injective : Function.Injective Symbol.text := by
  intro symbol other h
  have characters := congrArg String.toList h
  cases symbol <;> cases other <;> simp [Symbol.text, toString] at characters
  case user.user => rw [String.toList_inj.mp characters]
  case string.string =>
    have digits := congrArg (Nat.ofDigitChars 10 · 0) characters
    simp only [Nat.ofDigitChars_ten_toDigits] at digits
    rw [digits]
  case buffer.buffer => rw [String.toList_inj.mp characters]

namespace Program

theorem dataLength_eq_of_getElem? {data : List DataBlock} {j : Nat} {block : DataBlock}
    (h : data[j]? = some block) :
    dataLength data =
      dataLength (data.take j) + block.words.length + dataLength (data.drop (j + 1)) := by
  have ⟨hlt, hget⟩ := List.getElem?_eq_some_iff.mp h
  have split := dataLength_append (data.take j) (data.drop j)
  rw [List.take_append_drop, List.drop_eq_getElem_cons hlt, dataLength_cons, hget] at split
  omega

theorem exists_block_of_lt {data : List DataBlock} {n : Nat} (h : n < dataLength data) :
    ∃ (j : Nat) (block : DataBlock), data[j]? = some block ∧ dataLength (data.take j) ≤ n ∧
      n < dataLength (data.take j) + block.words.length := by
  induction data generalizing n with
  | nil => cases h
  | cons first rest ih =>
    by_cases hlt : n < first.words.length
    · refine ⟨0, first, rfl, Nat.zero_le n, ?_⟩
      simpa using hlt
    · rw [dataLength_cons] at h
      obtain ⟨j, block, hj, hle, hn⟩ := ih (n := n - first.words.length) (by omega)
      refine ⟨j + 1, block, hj, ?_, ?_⟩
      · rw [List.take_succ_cons, dataLength_cons]
        omega
      · rw [List.take_succ_cons, dataLength_cons]
        omega

section Blocks

variable {p : Program}

theorem blockStart_add_le {i j : Nat} (hij : i < j) {block : DataBlock}
    (h : p.data[i]? = some block) : p.blockStart i + block.words.length ≤ p.blockStart j := by
  obtain ⟨k, rfl⟩ := Nat.exists_eq_add_of_lt hij
  have upTo : (p.data.take (i + k + 1))[i]? = some block := by
    rw [List.getElem?_take_of_lt (by omega), h]
  have split := dataLength_eq_of_getElem? upTo
  rw [List.take_take, Nat.min_eq_left (by omega)] at split
  unfold blockStart
  omega

theorem blockStart_add_le_imageLength {j : Nat} {block : DataBlock} (h : p.data[j]? = some block) :
    p.blockStart j + block.words.length ≤ p.imageLength := by
  have split := dataLength_eq_of_getElem? h
  rw [imageLength_eq]
  unfold blockStart
  omega

theorem exists_block {address : Nat} (hcode : p.codeEnd ≤ address) (hlt : address < p.imageLength) :
    ∃ (j : Nat) (block : DataBlock), p.data[j]? = some block ∧ p.blockStart j ≤ address ∧
      address < p.blockStart j + block.words.length := by
  rw [imageLength_eq] at hlt
  unfold codeEnd at hcode
  have ⟨j, block, hj, hle, hn⟩ :=
    exists_block_of_lt (show address - (1 + p.code.length) < dataLength p.data by omega)
  refine ⟨j, block, hj, ?_, ?_⟩
  · unfold blockStart
    omega
  · unfold blockStart
    omega

end Blocks

section Addresses

variable {p : Program} {symbol : Symbol} {address : Nat}

theorem declaredAddress?_cases (h : p.declaredAddress? symbol = some address) :
    (∃ k word, p.code[k]? = some word ∧ word.label = some symbol ∧ address = k + 1) ∨
      ∃ (j : Nat) (block : DataBlock), p.data[j]? = some block ∧ block.symbol = symbol ∧
        address = p.blockStart j := by
  obtain hlabel | ⟨-, hblock⟩ := Option.or_eq_some_iff.mp h
  · exact .inl (exists_code_of_labelAddress? hlabel)
  · exact .inr (exists_block_of_blockAddress? hblock)

variable (hdata : ∀ block ∈ p.data, block.words ≠ [])
include hdata

theorem declaredAddress?_lt (h : p.declaredAddress? symbol = some address) :
    address < p.imageLength := by
  obtain ⟨k, word, hk, _, rfl⟩ | ⟨j, block, hj, _, rfl⟩ := declaredAddress?_cases h
  · have hlt := (List.getElem?_eq_some_iff.mp hk).1
    rw [imageLength_eq]
    omega
  · have bound := blockStart_add_le_imageLength hj
    have pos := List.length_pos_iff.mpr (hdata block (List.mem_of_getElem? hj))
    omega

theorem declaredAddress?_injective {other : Symbol} (h : p.declaredAddress? symbol = some address)
    (hother : p.declaredAddress? other = some address) : symbol = other := by
  have apart : ∀ {k j : Nat} {word : CodeWord}, p.code[k]? = some word →
      k + 1 ≠ p.blockStart j := by
    intro k j word hk
    have hlt := (List.getElem?_eq_some_iff.mp hk).1
    unfold blockStart
    omega
  have ascending : ∀ {i j : Nat} {block : DataBlock}, p.data[i]? = some block → i < j →
      p.blockStart i < p.blockStart j := by
    intro i j block hi hij
    have bound := blockStart_add_le hij hi
    have pos := List.length_pos_iff.mpr (hdata block (List.mem_of_getElem? hi))
    omega
  obtain ⟨k, word, hk, hlabel, rfl⟩ | ⟨i, block, hi, rfl, rfl⟩ := declaredAddress?_cases h
  · obtain ⟨k', word', hk', hlabel', heq⟩ | ⟨j, block, hj, _, heq⟩ := declaredAddress?_cases hother
    · obtain rfl : k = k' := Nat.succ.inj heq
      cases hk.symm.trans hk'
      exact Option.some.inj (hlabel.symm.trans hlabel')
    · exact absurd heq (apart hk)
  · obtain ⟨k, word, hk, _, heq⟩ | ⟨j, block', hj, rfl, heq⟩ := declaredAddress?_cases hother
    · exact absurd heq.symm (apart hk)
    · obtain hlt | rfl | hlt := Nat.lt_trichotomy i j
      · exact absurd heq (Nat.ne_of_lt (ascending hi hlt))
      · cases hi.symm.trans hj
        rfl
      · exact absurd heq.symm (Nat.ne_of_lt (ascending hj hlt))

end Addresses

end Program

namespace Layout

theorem get?_label (l : Layout) (labels : SparseTable String) (declaration : Symbol × Nat)
    (address : Nat) :
    (annotations.label l labels declaration).get? address =
      (labels.get? address).or
        (if l.address? declaration.1 = some address ∧ address ≤ maxWord then
          some declaration.1.text else none) := by
  obtain ⟨symbol, own⟩ := declaration
  unfold annotations.label
  cases hsymbol : l.address? symbol with
  | none => simp [hsymbol]
  | some other =>
    by_cases heq : other = address
    · subst heq
      by_cases hmax : other ≤ maxWord
      · simp [hsymbol, hmax, SparseTable.get?_insertIfNew]
      · simp [hsymbol, hmax]
    · by_cases hother : other ≤ maxWord
      · simp [hsymbol, hother, heq, SparseTable.get?_insertIfNew]
      · simp [hsymbol, hother, heq]

theorem label?_eq_find? (l : Layout) (address : Nat) :
    l.annotations.label? address = (l.declarations.find? fun declaration =>
      l.address? declaration.1 = some address ∧ address ≤ maxWord).map
        fun declaration => declaration.1.text := by
  have folded : ∀ (declarations : List (Symbol × Nat)) (labels : SparseTable String),
      (declarations.foldl (annotations.label l) labels).get? address =
        (labels.get? address).or ((declarations.find? fun declaration =>
          l.address? declaration.1 = some address ∧ address ≤ maxWord).map
            fun declaration => declaration.1.text) := by
    intro declarations
    induction declarations with
    | nil =>
      intro labels
      simp
    | cons declaration rest ih =>
      intro labels
      rw [List.foldl_cons, ih, get?_label l labels declaration, List.find?_cons]
      by_cases heq : l.address? declaration.1 = some address ∧ address ≤ maxWord
      · simp [heq]
      · rw [if_neg heq, decide_eq_false heq, Option.or_none]
  exact folded l.declarations .empty

theorem label?_annotations (l : Layout) {address : Nat} (hmax : address ≤ maxWord) :
    l.annotations.label? address = (l.declarations.find? fun declaration =>
      l.address? declaration.1 == some address).map fun declaration => declaration.1.text := by
  have same : (fun declaration : Symbol × Nat =>
      decide (l.address? declaration.1 = some address ∧ address ≤ maxWord)) =
        fun declaration => l.address? declaration.1 == some address := by
    funext declaration
    simp only [hmax, and_true, beq_eq_decide]
  rw [label?_eq_find?, same]

theorem address?_eq_lookup (p : Program) (symbol : Symbol) :
    (ofProgram p).address? symbol = (ofProgram p).declarations.lookup symbol :=
  getElem?_indexOf _ symbol

theorem label?_eq_some_iff {p : Program} (hdata : ∀ block ∈ p.data, block.words ≠ [])
    {address : Nat} (hmax : address ≤ maxWord) {text : String} :
    (ofProgram p).annotations.label? address = some text ↔
      ∃ symbol, p.declaredAddress? symbol = some address ∧ symbol.text = text := by
  rw [label?_annotations _ hmax, Option.map_eq_some_iff]
  constructor
  · rintro ⟨⟨symbol, own⟩, hfind, rfl⟩
    have found := List.find?_some hfind
    rw [beq_iff_eq, address?_ofProgram] at found
    exact ⟨symbol, found, rfl⟩
  · rintro ⟨symbol, hsymbol, rfl⟩
    have looked := hsymbol
    rw [← address?_ofProgram, address?_eq_lookup] at looked
    obtain ⟨before, after, hsplit, -⟩ := List.lookup_eq_some_iff.mp looked
    cases hfind : (ofProgram p).declarations.find? fun declaration =>
        (ofProgram p).address? declaration.1 == some address with
    | none =>
      have missing := List.find?_eq_none.mp hfind (symbol, address) (by simp [hsplit])
      rw [address?_ofProgram, hsymbol] at missing
      exact absurd (beq_self_eq_true _) missing
    | some declaration =>
      have found := List.find?_some hfind
      rw [beq_iff_eq, address?_ofProgram] at found
      refine ⟨declaration, rfl, ?_⟩
      rw [Program.declaredAddress?_injective hdata found hsymbol]

theorem placeBlocks_append (start : Nat) (first second : List DataBlock) :
    Program.placeBlocks start (first ++ second) =
      Program.placeBlocks start first ++
        Program.placeBlocks (start + Program.dataLength first) second := by
  induction first generalizing start with
  | nil => rfl
  | cons block rest ih =>
    rw [List.cons_append, Program.placeBlocks, Program.placeBlocks, ih, Program.dataLength_cons,
      Nat.add_assoc]
    rfl

theorem start_placeBlocks {start : Nat} {data : List DataBlock} {block : PlacedBlock}
    (h : block ∈ Program.placeBlocks start data) :
    start ≤ block.start ∧ block.start ≤ start + Program.dataLength data := by
  induction data generalizing start with
  | nil => cases h
  | cons first rest ih =>
    rw [Program.dataLength_cons]
    rw [Program.placeBlocks, List.mem_cons] at h
    obtain rfl | h := h
    · exact ⟨Nat.le_refl _, Nat.le_add_right _ _⟩
    · have bounds := ih h
      omega

theorem get?_extent_of_ne {blocks : List PlacedBlock} {key : Nat}
    (h : ∀ block ∈ blocks, block.start ≠ key) (data : SparseTable DataExtent) :
    (blocks.foldl annotations.extent data).get? key = data.get? key := by
  induction blocks generalizing data with
  | nil => rfl
  | cons block rest ih =>
    rw [List.foldl_cons, ih (fun other hother => h other (List.mem_cons_of_mem _ hother))]
    unfold annotations.extent
    split
    · rw [SparseTable.get?_insert, if_neg (h block List.mem_cons_self)]
    · rfl

theorem dataAround?_annotations {p : Program} {j : Nat} {block : DataBlock}
    (hj : p.data[j]? = some block) {address : Nat} (hle : p.blockStart j ≤ address)
    (hlt : address < p.blockStart j + block.words.length) (hmax : address ≤ maxWord) :
    (ofProgram p).annotations.dataAround? address =
      some (p.blockStart j, { name := block.symbol.text, size := block.words.length }) := by
  have ⟨hlength, hget⟩ := List.getElem?_eq_some_iff.mp hj
  have start : p.blockStart j = p.codeEnd + Program.dataLength (p.data.take j) := by
    unfold Program.blockStart Program.codeEnd
    omega
  have blocks : (ofProgram p).blocks = Program.placeBlocks p.codeEnd (p.data.take j) ++
      { symbol := block.symbol, start := p.blockStart j, size := block.words.length } ::
        Program.placeBlocks (p.blockStart j + block.words.length) (p.data.drop (j + 1)) := by
    have split := placeBlocks_append p.codeEnd (p.data.take j) (p.data.drop j)
    rw [List.take_append_drop, List.drop_eq_getElem_cons hlength, hget, ← start] at split
    exact split
  have behind : ∀ other ∈ Program.placeBlocks (p.blockStart j + block.words.length)
      (p.data.drop (j + 1)), address < other.start := by
    intro other hother
    have bounds := start_placeBlocks hother
    omega
  have here : (ofProgram p).annotations.data.get? (p.blockStart j) =
      some { name := block.symbol.text, size := block.words.length } := by
    show ((ofProgram p).blocks.foldl annotations.extent .empty).get? (p.blockStart j) = _
    rw [blocks, List.foldl_append, List.foldl_cons, get?_extent_of_ne]
    · have inside : p.blockStart j ≤ maxWord := Nat.le_trans hle hmax
      unfold annotations.extent
      rw [if_pos inside, SparseTable.get?_insert, if_pos rfl]
    · intro other hother
      have later := behind other hother
      omega
  have gap : ∀ i, p.blockStart j < i → i ≤ address →
      (ofProgram p).annotations.data.get? i = none := by
    intro i hlow hhigh
    show ((ofProgram p).blocks.foldl annotations.extent .empty).get? i = none
    rw [get?_extent_of_ne, SparseTable.get?_empty]
    intro other hother
    rw [blocks, List.mem_append, List.mem_cons] at hother
    obtain hbefore | rfl | hafter := hother
    · have bounds := start_placeBlocks hbefore
      omega
    · exact Nat.ne_of_lt hlow
    · have later := behind other hafter
      omega
  have offset : address - p.blockStart j < block.words.length := by omega
  unfold Annotations.dataAround?
  rw [SparseTable.floor?_eq_some here hle gap]
  exact if_pos offset

end Layout

end BusMachine.Assembly
