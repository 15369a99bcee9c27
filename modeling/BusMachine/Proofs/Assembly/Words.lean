import BusMachine.Proofs.Assembly.Source

/-!
Every word of an image is below the word size, whichever way it came into the text: as an opcode, a
number, a character, in a string or a buffer, or as an address.
-/

namespace BusMachine

theorem Word.nearest_lt {wordSize : Nat} (h : 0 < wordSize) (n : Int) :
    Word.nearest wordSize n < wordSize := by
  have hmin : min (min n.toNat (wordSize - 1)) maxWord ≤ wordSize - 1 :=
    Nat.le_trans (Nat.min_le_left _ _) (Nat.min_le_right _ _)
  exact Nat.lt_of_le_of_lt hmin (Nat.sub_one_lt_of_lt h)

namespace Assembly

structure WordsBelow (bound : Nat) (code : List CodeWord) (data : List DataBlock) : Prop where
  code_lt : ∀ word ∈ code, ∀ value, word.content = .word value → value < bound
  data_lt : ∀ block ∈ data, ∀ value ∈ block.words, value < bound

/-- A dialect in which opcodes are words. -/
structure Dialect.Fits (d : Dialect) : Prop where
  wordSize_pos : 0 < d.wordSize
  opcode_lt : ∀ i ∈ d.instructions.toList, i.opcode < d.wordSize

variable {d : Dialect}

theorem ofPlain_value_lt (hd : d.Fits) {word : String} {value : Word}
    (h : Meaning.ofPlain d word = .value value) : value < d.wordSize := by
  unfold Meaning.ofPlain at h
  split at h
  · rename_i i hi
    cases h
    exact hd.opcode_lt i (InstructionSet.named?_mem hi)
  · split at h
    · cases h
      exact Word.nearest_lt hd.wordSize_pos _
    · cases h

theorem ofWord_value_lt (hd : d.Fits) {word : String} {value : Word}
    (h : Meaning.ofWord d word = .value value) : value < d.wordSize := by
  unfold Meaning.ofWord at h
  split at h
  · cases h
  · cases h
  · unfold Meaning.ofBuffer at h
    dsimp only at h
    split at h <;> cases h
  · split at h
    · cases h
      exact Word.nearest_lt hd.wordSize_pos _
    · exact ofPlain_value_lt hd h

namespace Draft

def Below (bound : Nat) (p : Draft) : Prop := WordsBelow bound p.code.toList p.data.toList

variable {bound : Nat} {p : Draft}

theorem Below.emit (h : p.Below bound) {content : Content}
    (hcontent : ∀ value, content = .word value → value < bound) (position : Position) :
    (p.emit content position).Below bound := by
  refine ⟨fun word hword value hvalue => ?_, h.data_lt⟩
  simp only [Draft.emit, Array.toList_push, List.mem_append, List.mem_singleton] at hword
  cases hword with
  | inl hold => exact h.code_lt word hold value hvalue
  | inr hnew =>
    subst hnew
    exact hcontent value hvalue

theorem Below.pushBlock (h : p.Below bound) {block : DataBlock}
    (hblock : ∀ value ∈ block.words, value < bound) :
    WordsBelow bound p.code.toList (p.data.push block).toList := by
  refine ⟨h.code_lt, fun other hother => ?_⟩
  rw [Array.toList_push, List.mem_append, List.mem_singleton] at hother
  cases hother with
  | inl hold => exact h.data_lt other hold
  | inr hnew => exact hnew ▸ hblock

theorem Below.declareBuffer (h : p.Below bound) (hpos : 0 < bound) (name : String) (size : Nat)
    (position : Position) : (p.declareBuffer name size position).Below bound := by
  unfold Draft.declareBuffer
  split
  · exact h
  · apply h.pushBlock
    intro value hvalue
    rw [List.eq_of_mem_replicate hvalue]
    exact hpos

theorem Below.addString (h : p.Below bound) (hpos : 0 < bound) (codes : List Nat)
    (terminated : Bool) (position : Position) :
    (p.addString bound codes terminated position).Below bound := by
  have characters : ∀ value ∈ codes.map fun code : Nat => Word.nearest bound code,
      value < bound := by
    intro value hvalue
    have ⟨code, _, hcode⟩ := List.mem_map.mp hvalue
    rw [← hcode]
    exact Word.nearest_lt hpos _
  unfold Draft.addString
  apply Below.emit
  · apply h.pushBlock
    intro value hvalue
    cases terminated with
    | false => exact characters value hvalue
    | true =>
      cases List.mem_append.mp hvalue with
      | inl hold => exact characters value hold
      | inr hnew =>
        rw [List.mem_singleton.mp hnew]
        exact hpos
  · intro value hvalue
    cases hvalue

theorem Below.addToken (hd : d.Fits) {p p' : Draft} {t : Token} (h : p.Below d.wordSize)
    (hok : p.addToken d t = .ok p') : p'.Below d.wordSize := by
  have hpos := hd.wordSize_pos
  have noWord : ∀ symbol value, Content.reference symbol = .word value → value < d.wordSize :=
    fun symbol value hvalue => nomatch hvalue
  unfold Draft.addToken at hok
  split at hok
  · rename_i text hlexeme
    unfold Draft.addWord at hok
    split at hok
    · cases hok
      exact h
    · cases hok
      exact h.emit (noWord _) _
    · rename_i value hmeaning
      cases hok
      refine h.emit (fun value' hvalue => ?_) _
      cases hvalue
      exact ofWord_value_lt hd hmeaning
    · cases hok
      exact (h.declareBuffer hpos _ _ _).emit (noWord _) _
    · split at hok
      · cases hok
      · cases hok
        exact h
  · cases hok
    exact h.addString hpos _ _ _

end Draft

theorem wordsBelow_parse (hd : d.Fits) {tokens : List Token} {p : Program}
    (h : Program.parse d tokens = .ok p) : WordsBelow d.wordSize p.code p.data := by
  have ⟨draft, hdraft, hfinish⟩ := bind_eq_ok_iff.mp h
  have start : Draft.Below d.wordSize {} := ⟨by simp, by simp⟩
  have reached := foldlM_induction (fun p t p' => Draft.Below.addToken hd) start hdraft
  cases hfinish
  exact reached

theorem resolveWord_lt {l : Layout} {wordSize : Nat} {word : CodeWord} {value : Word}
    (hword : ∀ value, word.content = .word value → value < wordSize)
    (h : l.resolveWord wordSize word = .ok value) : value < wordSize := by
  unfold Layout.resolveWord at h
  split at h
  · rename_i hcontent
    cases h
    exact hword value hcontent
  · dsimp only at h
    split at h
    · cases h
    · split at h
      · rename_i hlt
        cases h
        exact hlt.1
      · cases h

theorem resolve_lt {p : Program} {wordSize : Nat} (hpos : 0 < wordSize)
    (hp : WordsBelow wordSize p.code p.data) {words : Array Word}
    (h : (Layout.ofProgram p).resolve p wordSize = .ok words) : ∀ w ∈ words, w < wordSize := by
  have ⟨code, hcode, hwords⟩ := Layout.resolve_eq_ok_iff.mp h
  subst hwords
  intro w hw
  rw [List.mem_toArray, List.mem_append, List.mem_cons] at hw
  cases hw with
  | inl hw =>
    cases hw with
    | inl hzero =>
      rw [hzero]
      exact hpos
    | inr hmem =>
      have ⟨word, hword, hresolve⟩ := exists_mem_left hcode hmem
      exact resolveWord_lt (hp.code_lt word hword) hresolve
  | inr hmem =>
    have ⟨block, hblock, hin⟩ := List.mem_flatMap.mp hmem
    exact hp.data_lt block hblock w hin

theorem ofSource_lt (hd : d.Fits) {memorySize : Nat} {source : String} {image : Image}
    (h : Image.ofSource d memorySize source = .ok image) : ∀ w ∈ image.words, w < d.wordSize := by
  have ⟨p, hparse, _, hresolve⟩ := exists_program_of_ofSource h
  exact resolve_lt hd.wordSize_pos (wordsBelow_parse hd hparse) hresolve

end Assembly

end BusMachine
