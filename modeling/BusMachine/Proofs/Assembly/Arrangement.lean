import BusMachine.Proofs.Assembly.Reading
import BusMachine.Proofs.Assembly.Source

/-!
Where the data of a text come to lie: behind the code without gaps, in the order of their first
mentions, and each mention becomes the address of its block.
-/

namespace BusMachine.Assembly

/-- Blocks that lie one behind the other from one address up to another. -/
def Tiles (start stop : Nat) : List PlacedBlock → Prop
  | [] => start = stop
  | block :: rest => block.start = start ∧ Tiles (start + block.size) stop rest

theorem tiles_placeBlocks (start : Nat) (data : List DataBlock) :
    Tiles start (start + Program.dataLength data) (Program.placeBlocks start data) := by
  induction data generalizing start with
  | nil => rfl
  | cons block rest ih =>
    refine ⟨rfl, ?_⟩
    rw [Program.dataLength_cons, ← Nat.add_assoc]
    exact ih _

theorem map_placeBlocks (start : Nat) (data : List DataBlock) :
    (Program.placeBlocks start data).map (fun block => (block.symbol, block.size)) =
      data.map fun block => (block.symbol, block.words.length) := by
  induction data generalizing start with
  | nil => rfl
  | cons block rest ih => exact congrArg _ (ih _)

theorem exists_placed_of_mem {p : Program}
    (hlabels : ∀ word ∈ p.code, ∀ symbol, word.label = some symbol → ∃ name, symbol = .user name)
    {block : DataBlock} (hblock : block ∈ p.data) (hsymbol : ∀ name, block.symbol ≠ .user name) :
    ∃ placed ∈ (Layout.ofProgram p).blocks, placed.symbol = block.symbol ∧
      p.declaredAddress? block.symbol = some placed.start := by
  have unlabelled : p.labelAddress? block.symbol = none := by
    unfold Program.labelAddress?
    rw [Option.map_eq_none_iff, List.findIdx?_eq_none_iff]
    intro word hword
    refine beq_false_of_ne fun hlabel => ?_
    obtain ⟨name, hname⟩ := hlabels word hword _ hlabel
    exact hsymbol name hname
  have start : p.codeEnd = 1 + p.code.length := Nat.add_comm _ _
  have looked : (((Layout.ofProgram p).blocks.map fun block => (block.symbol, block.start)).lookup
      block.symbol) = p.blockAddress? block.symbol := by
    unfold Layout.ofProgram
    rw [Program.lookup_placeBlocks, start]
    rfl
  unfold Program.declaredAddress?
  rw [unlabelled, Option.none_or, ← looked]
  have found : (((Layout.ofProgram p).blocks.map fun block => (block.symbol, block.start)).lookup
      block.symbol).isSome = true := by
    rw [looked]
    unfold Program.blockAddress?
    rw [Option.isSome_map, List.findIdx?_isSome, List.any_eq_true]
    exact ⟨block, hblock, beq_self_eq_true _⟩
  obtain ⟨address, haddress⟩ := Option.isSome_iff_exists.mp found
  obtain ⟨before, after, hsplit, -⟩ := List.lookup_eq_some_iff.mp haddress
  have member : (block.symbol, address) ∈
      (Layout.ofProgram p).blocks.map fun block => (block.symbol, block.start) := by
    rw [hsplit]
    simp
  obtain ⟨placed, hplaced, hsame⟩ := List.mem_map.mp member
  have ⟨hsymbol, hstart⟩ := Prod.mk.inj hsame
  exact ⟨placed, hplaced, hsymbol, hstart ▸ haddress⟩

theorem Draft.Reads.exists_mention {d : Dialect} {tokens : List Token} {draft : Draft}
    (h : draft.Reads d tokens) {words : Array Word} (himage : draft.finish.IsImage words) {i : Nat}
    {t : Token} {block : DataBlock} (hi : tokens[i]? = some t)
    (hasked : asked? d.wordSize tokens i = some block) :
    ∃ word placed, draft.finish.code[codeIndex d tokens i]? = some word ∧
      word.position = t.position ∧ placed ∈ (Layout.ofProgram draft.finish).blocks ∧
      placed.symbol = block.symbol ∧ words[codeIndex d tokens i + 1]? = some placed.start := by
  obtain ⟨_, hi', hblock⟩ := Option.bind_eq_some_iff.mp hasked
  cases hi.symm.trans hi'
  obtain ⟨word, hword, hcontent, hposition⟩ := h.word i t _ hi (content?_of_block? hblock)
  have code : draft.finish.code[codeIndex d tokens i]? = some word :=
    Array.getElem?_toList.trans hword
  obtain ⟨region, hregion, hsymbol⟩ := exists_region hasked
  have member : region ∈ draft.finish.data := by
    rw [← h.data] at hregion
    exact hregion
  have labels : ∀ word ∈ draft.finish.code, ∀ symbol, word.label = some symbol →
      ∃ name, symbol = .user name :=
    fun word hword => h.labels word (Array.mem_toList_iff.mp hword)
  have foreign : ∀ name, region.symbol ≠ .user name := by
    rw [hsymbol]
    exact symbol_block?_ne_user hblock
  obtain ⟨placed, hplaced, hsame, haddress⟩ := exists_placed_of_mem labels member foreign
  have meant : draft.finish.meant? word = some placed.start := by
    unfold Program.meant?
    rw [hcontent, ← hsymbol]
    exact haddress
  exact ⟨word, placed, code, hposition, hplaced, hsame.trans hsymbol,
    (himage.code _ word code).trans meant⟩

/-- How the data of a text are arranged. -/
structure Arranged (d : Dialect) (source : String) (p : Program) : Prop where
  parsed : Program.parse d (Token.scan source) = .ok p
  data : p.data = regions d.wordSize (Token.scan source)
  unique : (p.data.map DataBlock.symbol).Nodup
  strings : ∀ i t block, (Token.scan source)[i]? = some t → t.isString = true →
    asked? d.wordSize (Token.scan source) i = some block → block ∈ p.data
  buffers : ∀ i block, asked? d.wordSize (Token.scan source) i = some block →
    ∃ region ∈ p.data, region.symbol = block.symbol
  placed : (Layout.ofProgram p).blocks.map (fun block => (block.symbol, block.size)) =
    p.data.map fun block => (block.symbol, block.words.length)
  tiles : Tiles (Layout.ofProgram p).codeEnd (Layout.ofProgram p).imageLength
    (Layout.ofProgram p).blocks
  /-- In an image every mention is the address of the block. -/
  mentions : ∀ memorySize image, Image.ofSource d memorySize source = .ok image →
    ∀ i t block, (Token.scan source)[i]? = some t →
      asked? d.wordSize (Token.scan source) i = some block →
        ∃ word placed, p.code[codeIndex d (Token.scan source) i]? = some word ∧
          word.position = t.position ∧ placed ∈ (Layout.ofProgram p).blocks ∧
          placed.symbol = block.symbol ∧
          image.words[codeIndex d (Token.scan source) i + 1]? = some placed.start

/-- Whatever a text is, its data are arranged if words without a meaning are dropped. -/
theorem exists_arranged (instructions : InstructionSet) (wordSize : Nat) (source : String) :
    ∃ p, Arranged { instructions, wordSize } source p := by
  generalize hd : ({ instructions, wordSize } : Dialect) = d
  have lenient : d.firstUnknown? (Token.scan source) = none := by
    subst hd
    rfl
  cases hparse : Program.parse d (Token.scan source) with
  | error fault =>
    rw [parse_eq_error_iff, lenient] at hparse
    cases hparse
  | ok p =>
    have ⟨draft, hdraft, hfinish⟩ := bind_eq_ok_iff.mp hparse
    have reads := reads_of_foldlM hdraft
    cases hfinish
    have data : draft.finish.data = regions d.wordSize (Token.scan source) := reads.data
    refine ⟨draft.finish, hparse, data, ?_, ?_, ?_, map_placeBlocks _ _, ?_, ?_⟩
    · rw [data]
      exact nodup_regions
    · intro i t block hi hstring hasked
      rw [data]
      exact mem_regions_iff.mpr ⟨i, created?_of_string hi hstring hasked⟩
    · intro i block hasked
      rw [data]
      exact exists_region hasked
    · have stop : (Layout.ofProgram draft.finish).imageLength =
          draft.finish.codeEnd + Program.dataLength draft.finish.data := by
        rw [Program.codeEnd, Nat.add_comm draft.finish.code.length]
        exact Program.imageLength_eq _
      rw [stop]
      exact tiles_placeBlocks _ _
    · intro memorySize image himage i t block
      exact reads.exists_mention (isImage_of_ofSource himage hparse).1

example : (regions 256 (Token.scan "$b[2] \"a\" $b[9] $c")).map
    (fun block => (block.symbol, block.words)) =
      [(.buffer "b", [0, 0]), (.string 0, [97, 0]), (.buffer "c", [0])] := by
  decide +kernel

end BusMachine.Assembly
