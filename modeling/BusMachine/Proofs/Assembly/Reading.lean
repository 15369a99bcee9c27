import BusMachine.Proofs.Assembly.Regions
import Mathlib.Data.List.Induction

/-!
What parsing makes of a text, token by token: the blocks that the text asks for, a code word for
every token that stands for one, and labels that only the text declares.
-/

namespace BusMachine.Assembly

section Adding

variable {d : Dialect} {t : Token} {draft draft' : Draft}

theorem ofBuffer_eq (wordSize : Nat) (declaration : List Char) :
    Meaning.ofBuffer wordSize declaration =
      .buffer (bufferName declaration) (bufferLength wordSize declaration) := by
  unfold Meaning.ofBuffer bufferLength bufferName
  dsimp only
  split
  · rename_i size h
    rw [h]
    unfold Meaning.bufferSize
    rw [Text.digitsUpTo_eq_min]
    exact List.all_eq_true.mp List.all_takeWhile
  · rename_i h
    rw [h]

theorem ofWord_ne_buffer {text : String} (h : ∀ declaration, text.toList ≠ '$' :: declaration)
    (name : String) (size : Nat) : Meaning.ofWord d text ≠ .buffer name size := by
  unfold Meaning.ofWord
  split
  · exact Meaning.noConfusion
  · exact Meaning.noConfusion
  · rename_i declaration heq
    exact absurd heq (h declaration)
  · split
    · exact Meaning.noConfusion
    · unfold Meaning.ofPlain
      split
      · exact Meaning.noConfusion
      · split <;> exact Meaning.noConfusion

theorem block?_word {text : String} (h : t.lexeme = .word text) (strings : Nat) :
    t.block? d.wordSize strings = match Meaning.ofWord d text with
      | .buffer name size =>
        some { symbol := .buffer name, words := List.replicate size 0, position := t.position }
      | _ => none := by
  unfold Token.block?
  rw [h]
  dsimp only
  split
  · rename_i declaration heq
    have meaning : Meaning.ofWord d text = Meaning.ofBuffer d.wordSize declaration := by
      unfold Meaning.ofWord
      rw [heq]
      rfl
    rw [meaning, ofBuffer_eq]
  · rename_i hne
    have other := ofWord_ne_buffer (d := d) fun declaration heq => hne declaration heq
    cases hmeaning : Meaning.ofWord d text with
    | buffer name size => exact absurd hmeaning (other name size)
    | _ => rfl

def Draft.lacks (draft : Draft) (block : DataBlock) : Bool :=
  match block.symbol with
  | .buffer name => !draft.buffers.contains name
  | _ => true

/-- What a token does to the data of a draft. -/
structure AddsData (wordSize : Nat) (t : Token) (draft draft' : Draft) : Prop where
  strings : draft'.strings = draft.strings + if t.isString then 1 else 0
  data : draft'.data.toList =
    draft.data.toList ++ ((t.block? wordSize draft.strings).filter draft.lacks).toList
  buffers : ∀ name, name ∈ draft'.buffers ↔ name ∈ draft.buffers ∨
    ∃ block, t.block? wordSize draft.strings = some block ∧ block.symbol = .buffer name

theorem addsData_of_none {wordSize : Nat} (hblock : t.block? wordSize draft.strings = none)
    (hstring : t.isString = false) (hdata : draft'.data = draft.data)
    (hbuffers : draft'.buffers = draft.buffers) (hstrings : draft'.strings = draft.strings) :
    AddsData wordSize t draft draft' := by
  refine ⟨?_, ?_, fun name => ?_⟩
  · rw [hstrings, hstring]
    rfl
  · rw [hdata, hblock, Option.filter_none, Option.toList_none, List.append_nil]
  · rw [hbuffers, hblock]
    simp

theorem addsData_of_buffer {wordSize : Nat} {name : String} {size : Nat} {content : Content}
    (hblock : t.block? wordSize draft.strings =
      some { symbol := .buffer name, words := List.replicate size 0, position := t.position })
    (hstring : t.isString = false) :
    AddsData wordSize t draft
      ((draft.declareBuffer name size t.position).emit content t.position) := by
  have ⟨_, _, strings⟩ := declareBuffer_keeps draft name size t.position
  refine ⟨?_, ?_, fun other => ?_⟩
  · rw [hstring]
    exact strings
  · rw [hblock, Option.filter_some]
    show (draft.declareBuffer name size t.position).data.toList = draft.data.toList ++
      (if (!draft.buffers.contains name) = true then some _ else none).toList
    unfold Draft.declareBuffer
    cases draft.buffers.contains name <;> simp
  · have asked : (∃ block, t.block? wordSize draft.strings = some block ∧
        block.symbol = .buffer other) ↔ name = other := by
      rw [hblock]
      simp
    rw [asked]
    show other ∈ (draft.declareBuffer name size t.position).buffers ↔ _
    unfold Draft.declareBuffer
    cases hknown : draft.buffers.contains name with
    | true =>
      refine ⟨Or.inl, fun h => h.elim id ?_⟩
      rintro rfl
      exact hknown
    | false => simp [or_comm]

theorem nearest_eq (wordSize code : Nat) :
    Word.nearest wordSize code = min code (min (wordSize - 1) maxWord) := by
  unfold Word.nearest
  rw [Int.toNat_natCast, Nat.min_assoc]

theorem addsData_of_addToken (h : draft.addToken d t = .ok draft') :
    AddsData d.wordSize t draft draft' := by
  unfold Draft.addToken at h
  cases hlexeme : t.lexeme with
  | string codes terminated =>
    rw [hlexeme] at h
    cases h
    have block : t.block? d.wordSize draft.strings = some
        { symbol := .string draft.strings
          words := codes.map (fun code => min code (min (d.wordSize - 1) maxWord)) ++
            if terminated then [0] else []
          position := t.position } := by
      unfold Token.block?
      rw [hlexeme]
    have words : (codes.map (fun code => min code (min (d.wordSize - 1) maxWord)) ++
        if terminated then [0] else []) =
          if terminated then codes.map (fun code : Nat => Word.nearest d.wordSize code) ++ [0]
          else codes.map fun code : Nat => Word.nearest d.wordSize code := by
      simp only [nearest_eq]
      cases terminated with
      | true => rfl
      | false => exact List.append_nil _
    refine ⟨?_, ?_, fun name => ?_⟩
    · simp [Draft.addString, Draft.emit, Token.isString, hlexeme]
    · rw [block, words, Option.filter_some]
      exact Array.toList_push
    · rw [block]
      simp [Draft.addString, Draft.emit]
  | word text =>
    rw [hlexeme] at h
    have hstring : t.isString = false := by
      unfold Token.isString
      rw [hlexeme]
    have block := block?_word (d := d) hlexeme draft.strings
    unfold Draft.addWord at h
    dsimp only at h
    cases hmeaning : Meaning.ofWord d text with
    | buffer name size =>
      rw [hmeaning] at h block
      cases h
      exact addsData_of_buffer block hstring
    | unknown =>
      rw [hmeaning] at h block
      dsimp only at h
      split at h
      · cases h
      · cases h
        exact addsData_of_none block hstring rfl rfl rfl
    | _ =>
      rw [hmeaning] at h block
      cases h
      exact addsData_of_none block hstring rfl rfl rfl

/-- What a token does to the code of a draft. -/
structure AddsCode (d : Dialect) (t : Token) (draft draft' : Draft) : Prop where
  emitted : ∀ content, t.content? d draft.strings = some content →
    draft'.code = draft.code.push { content, label := draft.pending, position := t.position } ∧
      draft'.pending = none
  skipped : t.content? d draft.strings = none → draft'.code = draft.code ∧
    (draft'.pending = draft.pending ∨ ∃ name, draft'.pending = some (.user name))

theorem addsCode_of_addToken (h : draft.addToken d t = .ok draft') : AddsCode d t draft draft' := by
  cases hcontent : t.content? d draft.strings with
  | some content =>
    obtain ⟨other, emits⟩ := exists_emits (t := t) draft (by rw [hcontent]; rfl)
    cases h.symm.trans emits.added
    obtain ⟨_, hsame, hcode⟩ := emits.code
    cases hcontent.symm.trans hsame
    refine ⟨fun _ hother => ?_, fun hnone => ?_⟩
    · cases hcontent.symm.trans hother
      exact ⟨hcode, emits.pending⟩
    · cases hcontent.symm.trans hnone
  | none =>
    refine ⟨fun _ hother => ?_, fun _ => ?_⟩
    · cases hcontent.symm.trans hother
    unfold Token.content? at hcontent
    unfold Draft.addToken at h
    cases hlexeme : t.lexeme with
    | string codes terminated =>
      rw [hlexeme] at hcontent
      cases hcontent
    | word text =>
      rw [hlexeme] at h hcontent
      unfold Draft.addWord at h
      dsimp only at h hcontent
      cases hmeaning : Meaning.ofWord d text with
      | label name =>
        rw [hmeaning] at h
        cases h
        exact ⟨rfl, .inr ⟨name, rfl⟩⟩
      | unknown =>
        rw [hmeaning] at h
        dsimp only at h
        split at h
        · cases h
        · cases h
          exact ⟨rfl, .inl rfl⟩
      | _ =>
        rw [hmeaning] at hcontent
        cases hcontent

end Adding

def codeIndex (d : Dialect) (tokens : List Token) (i : Nat) : Nat :=
  (tokens.take i).countP fun t => (t.content? d 0).isSome

/-- A draft into which a text was read. -/
structure Draft.Reads (d : Dialect) (tokens : List Token) (draft : Draft) : Prop where
  strings : draft.strings = stringsBefore tokens tokens.length
  data : draft.data.toList = regions d.wordSize tokens
  buffers : ∀ name, name ∈ draft.buffers ↔ ∃ i < tokens.length, ∃ block,
    asked? d.wordSize tokens i = some block ∧ block.symbol = .buffer name
  size : draft.code.size = codeIndex d tokens tokens.length
  word : ∀ i t content, tokens[i]? = some t →
    t.content? d (stringsBefore tokens i) = some content →
      ∃ word, draft.code[codeIndex d tokens i]? = some word ∧ word.content = content ∧
        word.position = t.position
  labels : ∀ word ∈ draft.code, ∀ symbol, word.label = some symbol → ∃ name, symbol = .user name
  pending : ∀ symbol, draft.pending = some symbol → ∃ name, symbol = .user name

section Texts

variable {d : Dialect} {t : Token} {tokens : List Token} {draft draft' : Draft}

theorem reads_nil : Draft.Reads d [] {} :=
  ⟨rfl, rfl, by simp, rfl, by simp, by simp, by simp⟩

theorem Draft.Reads.lacks_iff (h : draft.Reads d tokens) {block : DataBlock}
    (hblock : t.block? d.wordSize draft.strings = some block) :
    draft.lacks block = true ↔ ∀ j < tokens.length, ∀ other,
      asked? d.wordSize (tokens ++ [t]) j = some other → other.symbol ≠ block.symbol := by
  have last : (tokens ++ [t])[tokens.length]? = some t := List.getElem?_concat_length
  have asked : asked? d.wordSize (tokens ++ [t]) tokens.length = some block := by
    rw [asked?_concat, ← h.strings, hblock]
  unfold Draft.lacks
  cases hsymbol : block.symbol with
  | user name => exact absurd hsymbol (symbol_block?_ne_user hblock name)
  | string k =>
    have ⟨hstring, _⟩ := symbol_block? hblock hsymbol
    have first := (created?_eq_some_iff.mp (created?_of_string last hstring asked)).2
    rw [hsymbol] at first
    exact ⟨fun _ => first, fun _ => rfl⟩
  | buffer name =>
    have known : draft.buffers.contains name = true ↔ name ∈ draft.buffers := Iff.rfl
    rw [Bool.not_eq_true', ← Bool.not_eq_true, known, h.buffers]
    constructor
    · intro hnone j hj other hother hsame
      rw [asked?_append hj] at hother
      exact hnone ⟨j, hj, other, hother, hsame⟩
    · rintro hnone ⟨j, hj, other, hother, hsame⟩
      rw [← asked?_append hj] at hother
      exact hnone j hj other hother hsame

theorem Draft.Reads.filter_lacks (h : draft.Reads d tokens) :
    (t.block? d.wordSize draft.strings).filter draft.lacks =
      created? d.wordSize (tokens ++ [t]) tokens.length := by
  ext block
  rw [created?_eq_some_iff, asked?_concat, ← h.strings, Option.filter_eq_some_iff]
  exact and_congr_right h.lacks_iff

theorem stringsBefore_concat :
    stringsBefore (tokens ++ [t]) (tokens ++ [t]).length =
      stringsBefore tokens tokens.length + if t.isString then 1 else 0 := by
  unfold stringsBefore
  rw [List.take_length, List.take_length, List.countP_append, List.countP_singleton]

theorem codeIndex_append {i : Nat} (h : i ≤ tokens.length) :
    codeIndex d (tokens ++ [t]) i = codeIndex d tokens i := by
  unfold codeIndex
  rw [List.take_append_of_le_length h]

theorem codeIndex_concat : codeIndex d (tokens ++ [t]) (tokens ++ [t]).length =
    codeIndex d tokens tokens.length + if (t.content? d 0).isSome then 1 else 0 := by
  unfold codeIndex
  rw [List.take_length, List.take_length, List.countP_append, List.countP_singleton]

theorem Draft.Reads.concat_code (h : draft.Reads d tokens) (hadd : AddsCode d t draft draft') :
    draft'.code.size = codeIndex d (tokens ++ [t]) (tokens ++ [t]).length ∧
    (∀ (k : Nat) (word : CodeWord), draft.code[k]? = some word → draft'.code[k]? = some word) ∧
    (∀ content, t.content? d draft.strings = some content →
      draft'.code[codeIndex d tokens tokens.length]? =
        some { content, label := draft.pending, position := t.position }) := by
  rw [codeIndex_concat, content?_isSome t 0 draft.strings, ← h.size]
  cases hcontent : t.content? d draft.strings with
  | none =>
    obtain ⟨hcode, _⟩ := hadd.skipped hcontent
    rw [hcode]
    exact ⟨rfl, fun _ _ => id, fun _ hother => nomatch hother⟩
  | some content =>
    obtain ⟨hcode, _⟩ := hadd.emitted content hcontent
    rw [hcode]
    refine ⟨Array.size_push _, fun k word hword => ?_, fun other hother => ?_⟩
    · have hlt := (Array.getElem?_eq_some_iff.mp hword).1
      rw [Array.getElem?_push, if_neg (Nat.ne_of_lt hlt), hword]
    · cases hother
      rw [Array.getElem?_push, if_pos rfl]

theorem Draft.Reads.concat_labels (h : draft.Reads d tokens) (hadd : AddsCode d t draft draft') :
    (∀ word ∈ draft'.code, ∀ symbol, word.label = some symbol → ∃ name, symbol = .user name) ∧
      ∀ symbol, draft'.pending = some symbol → ∃ name, symbol = .user name := by
  cases hcontent : t.content? d draft.strings with
  | none =>
    obtain ⟨hcode, hpending⟩ := hadd.skipped hcontent
    rw [hcode]
    refine ⟨h.labels, fun symbol hsymbol => ?_⟩
    obtain hsame | ⟨name, hnew⟩ := hpending
    · exact h.pending symbol (hsame.symm.trans hsymbol)
    · exact ⟨name, Option.some.inj (hsymbol.symm.trans hnew)⟩
  | some content =>
    obtain ⟨hcode, hpending⟩ := hadd.emitted content hcontent
    rw [hcode, hpending]
    refine ⟨fun word hword => ?_, fun symbol hsymbol => nomatch hsymbol⟩
    obtain hold | rfl := Array.mem_push.mp hword
    · exact h.labels word hold
    · exact h.pending

theorem Draft.Reads.concat (h : draft.Reads d tokens) (hadd : draft.addToken d t = .ok draft') :
    draft'.Reads d (tokens ++ [t]) := by
  have data := addsData_of_addToken hadd
  have code := addsCode_of_addToken hadd
  have ⟨hsize, hkept, hnew⟩ := h.concat_code code
  have ⟨hlabels, hpending⟩ := h.concat_labels code
  refine ⟨?_, ?_, fun name => ?_, hsize, fun i t' content hi hcontent => ?_, hlabels, hpending⟩
  · rw [data.strings, h.strings, stringsBefore_concat]
  · rw [data.data, h.data, h.filter_lacks, regions_concat]
  · rw [data.buffers, h.buffers, List.length_append, List.length_singleton]
    constructor
    · rintro (⟨i, hi, block, hblock, hsymbol⟩ | ⟨block, hblock, hsymbol⟩)
      · exact ⟨i, Nat.lt_succ_of_lt hi, block, (asked?_append hi).trans hblock, hsymbol⟩
      · rw [h.strings, ← asked?_concat] at hblock
        exact ⟨_, Nat.lt_succ_self _, block, hblock, hsymbol⟩
    · rintro ⟨i, hi, block, hblock, hsymbol⟩
      obtain hlt | rfl := Nat.lt_succ_iff_lt_or_eq.mp hi
      · exact .inl ⟨i, hlt, block, (asked?_append hlt).symm.trans hblock, hsymbol⟩
      · rw [asked?_concat, ← h.strings] at hblock
        exact .inr ⟨block, hblock, hsymbol⟩
  · obtain hlt | rfl : i < tokens.length ∨ i = tokens.length := by
      have bound := (List.getElem?_eq_some_iff.mp hi).1
      rw [List.length_append, List.length_singleton] at bound
      omega
    · rw [List.getElem?_append_left hlt] at hi
      rw [stringsBefore_append (Nat.le_of_lt hlt)] at hcontent
      obtain ⟨word, hword, hmeans⟩ := h.word i t' content hi hcontent
      rw [codeIndex_append (Nat.le_of_lt hlt)]
      exact ⟨word, hkept _ word hword, hmeans⟩
    · rw [List.getElem?_concat_length] at hi
      cases hi
      rw [stringsBefore_append (Nat.le_refl _), ← h.strings] at hcontent
      rw [codeIndex_append (Nat.le_refl _)]
      exact ⟨_, hnew content hcontent, rfl, rfl⟩

theorem read_induction {P : List Token → Draft → Prop} (nil : P [] {})
    (concat : ∀ tokens draft t draft', P tokens draft → draft.addToken d t = .ok draft' →
      P (tokens ++ [t]) draft')
    (hadd : tokens.foldlM (Draft.addToken d) {} = .ok draft) : P tokens draft := by
  induction tokens using List.reverseRecOn generalizing draft with
  | nil =>
    cases hadd
    exact nil
  | append_singleton tokens t ih =>
    rw [List.foldlM_append] at hadd
    have ⟨between, hbetween, hlast⟩ := bind_eq_ok_iff.mp hadd
    rw [List.foldlM_cons] at hlast
    have ⟨after, hafter, hend⟩ := bind_eq_ok_iff.mp hlast
    cases hend
    exact concat tokens between t _ (ih hbetween) hafter

theorem reads_of_foldlM (hadd : tokens.foldlM (Draft.addToken d) {} = .ok draft) :
    draft.Reads d tokens :=
  read_induction reads_nil (fun _ _ _ _ => Draft.Reads.concat) hadd

theorem content?_of_block? {strings : Nat} {block : DataBlock}
    (h : t.block? d.wordSize strings = some block) :
    t.content? d strings = some (.reference block.symbol) := by
  unfold Token.content?
  cases hlexeme : t.lexeme with
  | string codes terminated =>
    unfold Token.block? at h
    rw [hlexeme] at h
    cases h
    rfl
  | word text =>
    rw [block?_word hlexeme] at h
    show (Meaning.ofWord d text).content? = _
    cases hmeaning : Meaning.ofWord d text <;> rw [hmeaning] at h <;> cases h
    rfl

end Texts

end BusMachine.Assembly
