import BusMachine.Proofs.Assembly.Resolution

/-!
Texts that are sequences of statements: a mnemonic with the operands of its instruction, each of
which may have a label in front. Parsing makes one code word of every mnemonic and every operand, in
their order.
-/

namespace BusMachine.Assembly

def Meaning.content? : Meaning → Option Content
  | .value word => some (.word word)
  | .reference name => some (.reference (.user name))
  | .buffer name _ => some (.reference (.buffer name))
  | .label _ | .unknown => none

namespace Token

def label? (d : Dialect) (t : Token) : Option Symbol :=
  match t.lexeme with
  | .string _ _ => none
  | .word text =>
    match Meaning.ofWord d text with
    | .label name => some (.user name)
    | _ => none

/-- What a token puts into the code behind `strings` strings. -/
def content? (d : Dialect) (strings : Nat) (t : Token) : Option Content :=
  match t.lexeme with
  | .string _ _ => some (.reference (.string strings))
  | .word text => (Meaning.ofWord d text).content?

def instruction? (d : Dialect) (t : Token) : Option Instruction :=
  match t.lexeme with
  | .string _ _ => none
  | .word text => d.instructions.named? text

def isString (t : Token) : Bool :=
  match t.lexeme with
  | .string _ _ => true
  | .word _ => false

end Token

variable {d : Dialect}

theorem addToken_label {t : Token} {symbol : Symbol} (h : t.label? d = some symbol)
    (draft : Draft) : draft.addToken d t = .ok { draft with pending := some symbol } := by
  unfold Token.label? at h
  unfold Draft.addToken Draft.addWord
  cases hlexeme : t.lexeme with
  | string codes terminated =>
    rw [hlexeme] at h
    cases h
  | word text =>
    rw [hlexeme] at h
    dsimp only at h ⊢
    cases hmeaning : Meaning.ofWord d text <;> rw [hmeaning] at h <;> cases h
    rfl

theorem declareBuffer_keeps (draft : Draft) (name : String) (size : Nat) (position : Position) :
    (draft.declareBuffer name size position).code = draft.code ∧
      (draft.declareBuffer name size position).pending = draft.pending ∧
      (draft.declareBuffer name size position).strings = draft.strings := by
  unfold Draft.declareBuffer
  split
  · exact ⟨rfl, rfl, rfl⟩
  · exact ⟨rfl, rfl, rfl⟩

structure Emits (d : Dialect) (t : Token) (draft draft' : Draft) : Prop where
  added : draft.addToken d t = .ok draft'
  code : ∃ content, t.content? d draft.strings = some content ∧
    draft'.code = draft.code.push { content, label := draft.pending, position := t.position }
  pending : draft'.pending = none
  strings : draft'.strings = draft.strings + if t.isString then 1 else 0

theorem exists_emits {t : Token} (draft : Draft)
    (h : (t.content? d draft.strings).isSome = true) : ∃ draft', Emits d t draft draft' := by
  cases hlexeme : t.lexeme with
  | string codes terminated =>
    refine ⟨draft.addString d.wordSize codes terminated t.position, ?_, ?_, rfl, ?_⟩
    · simp only [Draft.addToken, hlexeme]
    · exact ⟨.reference (.string draft.strings), by simp only [Token.content?, hlexeme], rfl⟩
    · simp only [Token.isString, hlexeme, if_true]
      rfl
  | word text =>
    have added : draft.addToken d t = draft.addWord d text t.position := by
      simp only [Draft.addToken, hlexeme]
    have content : t.content? d draft.strings = (Meaning.ofWord d text).content? := by
      simp only [Token.content?, hlexeme]
    have strings : draft.strings = draft.strings + if t.isString then 1 else 0 := by
      simp [Token.isString, hlexeme]
    rw [content] at h
    unfold Draft.addWord at added
    cases hmeaning : Meaning.ofWord d text <;> rw [hmeaning] at h added content
    case label | unknown => cases h
    case reference | value => exact ⟨_, added, ⟨_, content, rfl⟩, rfl, strings⟩
    case buffer name size =>
      have ⟨hcode, hpending, hstrings⟩ := declareBuffer_keeps draft name size t.position
      refine ⟨_, added, ⟨_, content, ?_⟩, rfl, hstrings.trans strings⟩
      rw [Draft.emit, hcode, hpending]

/-- A token that puts a word into the code, with the declaration of a label in front of it. -/
structure Item where
  declaration : Option Token := none
  token : Token
deriving DecidableEq, Repr

namespace Item

def tokens (item : Item) : List Token := item.declaration.toList ++ [item.token]

/-- What stands in the places of the two tokens is of their kind. -/
structure WellFormed (d : Dialect) (item : Item) : Prop where
  declares : ∀ t ∈ item.declaration, (t.label? d).isSome = true
  emits : (item.token.content? d 0).isSome = true

instance (d : Dialect) (item : Item) : Decidable (item.WellFormed d) :=
  decidable_of_iff
    ((∀ t ∈ item.declaration, (t.label? d).isSome = true) ∧
      (item.token.content? d 0).isSome = true)
    ⟨fun h => ⟨h.1, h.2⟩, fun h => ⟨h.declares, h.emits⟩⟩

def label? (d : Dialect) (item : Item) : Option Symbol := item.declaration.bind (Token.label? d)

def word? (d : Dialect) (strings : Nat) (item : Item) : Option CodeWord :=
  (item.token.content? d strings).map fun content =>
    { content, label := item.label? d, position := item.token.position }

def strings (items : List Item) : Nat := items.countP fun item => item.token.isString

end Item

theorem content?_isSome (t : Token) (first second : Nat) :
    (t.content? d first).isSome = (t.content? d second).isSome := by
  unfold Token.content?
  split
  · rfl
  · rfl

theorem content?_of_ne_string {t : Token} {first : Nat} {content : Content}
    (h : t.content? d first = some content) (hstring : ∀ n, content ≠ .reference (.string n))
    (second : Nat) : t.content? d second = some content := by
  unfold Token.content? at h ⊢
  split at h
  · cases h
    exact absurd rfl (hstring first)
  · exact h

theorem word?_eq_some_iff {item : Item} {strings : Nat} {word : CodeWord} :
    item.word? d strings = some word ↔ item.token.content? d strings = some word.content ∧
      word.label = item.label? d ∧ word.position = item.token.position := by
  unfold Item.word?
  obtain ⟨content, label, position⟩ := word
  cases item.token.content? d strings <;> simp [eq_comm]

theorem foldlM_tokens {item : Item} (h : item.WellFormed d) {draft : Draft}
    (hpending : draft.pending = none) :
    item.tokens.foldlM (Draft.addToken d) draft =
      { draft with pending := item.label? d }.addToken d item.token := by
  have single : ∀ draft : Draft, [item.token].foldlM (Draft.addToken d) draft =
      draft.addToken d item.token := by
    intro draft
    simp only [List.foldlM_cons, List.foldlM_nil, bind_pure]
  unfold Item.tokens Item.label?
  cases hdeclaration : item.declaration with
  | none =>
    rw [Option.bind_none, ← hpending]
    exact single draft
  | some t =>
    have ⟨symbol, hsymbol⟩ := Option.isSome_iff_exists.mp (h.declares t hdeclaration)
    rw [Option.toList_some, List.singleton_append, List.foldlM_cons, addToken_label hsymbol,
      Option.bind_some, hsymbol]
    exact single _

structure Draft.Holds (d : Dialect) (items : List Item) (draft : Draft) : Prop where
  size_eq : draft.code.size = items.length
  word : ∀ (k : Nat) (item : Item), items[k]? = some item → ∃ word, draft.code[k]? = some word ∧
    item.word? d (Item.strings (items.take k)) = some word
  pending : draft.pending = none
  strings : draft.strings = Item.strings items

theorem Draft.Holds.item {items : List Item} {draft draft' : Draft} (h : draft.Holds d items)
    {item : Item} (hitem : item.WellFormed d)
    (hadd : item.tokens.foldlM (Draft.addToken d) draft = .ok draft') :
    draft'.Holds d (items ++ [item]) := by
  have emits : (item.token.content? d draft.strings).isSome = true :=
    content?_isSome item.token 0 draft.strings ▸ hitem.emits
  have ⟨after, emitted⟩ :=
    exists_emits { draft with pending := item.label? d } emits
  rw [foldlM_tokens hitem h.pending, emitted.added] at hadd
  obtain rfl := Except.ok.inj hadd
  obtain ⟨content, hcontent, hcode⟩ := emitted.code
  refine ⟨?_, fun k other hk => ?_, emitted.pending, ?_⟩
  · rw [hcode, Array.size_push, h.size_eq, List.length_append, List.length_singleton]
  · rw [hcode, Array.getElem?_push, h.size_eq]
    obtain hlt | heq : k < items.length ∨ k = items.length := by
      have hbound := (List.getElem?_eq_some_iff.mp hk).1
      rw [List.length_append, List.length_singleton] at hbound
      omega
    · rw [if_neg (Nat.ne_of_lt hlt), List.take_append_of_le_length (Nat.le_of_lt hlt)]
      rw [List.getElem?_append_left hlt] at hk
      exact h.word k other hk
    · subst heq
      rw [List.getElem?_concat_length] at hk
      cases hk
      rw [if_pos rfl, List.take_left, ← h.strings]
      refine ⟨_, rfl, ?_⟩
      unfold Item.word?
      rw [hcontent]
      rfl
  · rw [emitted.strings, h.strings]
    simp [Item.strings, List.countP_append, List.countP_singleton]

structure Program.Consists (d : Dialect) (items : List Item) (p : Program) : Prop where
  length_eq : p.code.length = items.length
  word : ∀ (k : Nat) (item : Item), items[k]? = some item → ∃ word, p.code[k]? = some word ∧
    item.word? d (Item.strings (items.take k)) = some word

theorem holds_items {done items : List Item} {draft draft' : Draft} (h : draft.Holds d done)
    (hitems : ∀ item ∈ items, item.WellFormed d)
    (hadd : (items.flatMap Item.tokens).foldlM (Draft.addToken d) draft = .ok draft') :
    draft'.Holds d (done ++ items) := by
  induction items generalizing done draft with
  | nil =>
    cases hadd
    rw [List.append_nil]
    exact h
  | cons item rest ih =>
    rw [List.flatMap_cons, List.foldlM_append] at hadd
    have ⟨next, hnext, hrest⟩ := bind_eq_ok_iff.mp hadd
    have one := h.item (hitems item List.mem_cons_self) hnext
    have all := ih one (fun other hother => hitems other (List.mem_cons_of_mem _ hother)) hrest
    rw [List.append_assoc] at all
    exact all

theorem consists_of_parse {items : List Item} (hitems : ∀ item ∈ items, item.WellFormed d)
    {p : Program} (h : Program.parse d (items.flatMap Item.tokens) = .ok p) :
    p.Consists d items := by
  have ⟨draft, hdraft, hfinish⟩ := bind_eq_ok_iff.mp h
  have start : Draft.Holds d [] {} := ⟨rfl, by simp, rfl, rfl⟩
  have reached := holds_items start hitems hdraft
  cases hfinish
  refine ⟨?_, ?_⟩
  · simpa [Draft.finish] using reached.size_eq
  · simpa [Draft.finish] using reached.word

/-- A mnemonic with the operands of its instruction. -/
structure Statement where
  instruction : Instruction
  mnemonic : Item
  operands : List Item
deriving DecidableEq, Repr

namespace Statement

def items (s : Statement) : List Item := s.mnemonic :: s.operands

def tokens (s : Statement) : List Token := s.items.flatMap Item.tokens

/-- The mnemonic is that of the instruction, which has as many operands. -/
structure WellFormed (d : Dialect) (s : Statement) : Prop where
  named : s.mnemonic.token.instruction? d = some s.instruction
  opcode : s.mnemonic.token.content? d 0 = some (.word s.instruction.opcode)
  arity : s.operands.length = s.instruction.operands.length
  items : ∀ item ∈ s.items, item.WellFormed d

instance (d : Dialect) (s : Statement) : Decidable (s.WellFormed d) :=
  decidable_of_iff
    (s.mnemonic.token.instruction? d = some s.instruction ∧
      s.mnemonic.token.content? d 0 = some (.word s.instruction.opcode) ∧
      s.operands.length = s.instruction.operands.length ∧ ∀ item ∈ s.items, item.WellFormed d)
    ⟨fun h => ⟨h.1, h.2.1, h.2.2.1, h.2.2.2⟩, fun h => ⟨h.named, h.opcode, h.arity, h.items⟩⟩

def addressAfter (before : List Statement) : Nat := 1 + (before.flatMap items).length

theorem addressAfter_append (before : List Statement) (s : Statement) (after : List Statement) :
    addressAfter (before ++ s :: after) =
      addressAfter before + s.items.length + (after.flatMap items).length := by
  unfold addressAfter
  rw [List.flatMap_append, List.flatMap_cons, List.length_append, List.length_append]
  omega

theorem exists_mnemonic {s : Statement} (h : s.WellFormed d) :
    ∃ text, s.mnemonic.token.lexeme = .word text ∧
      d.instructions.named? text = some s.instruction := by
  have named := h.named
  unfold Token.instruction? at named
  split at named
  · cases named
  · rename_i text hlexeme
    exact ⟨text, hlexeme, named⟩

theorem length_items {s : Statement} (h : s.WellFormed d) :
    s.items.length = s.instruction.length := by
  unfold items Instruction.length
  rw [List.length_cons, h.arity, Nat.add_comm]

end Statement

theorem consists_of_statements {statements : List Statement}
    (hstatements : ∀ s ∈ statements, s.WellFormed d) {p : Program}
    (h : Program.parse d (statements.flatMap Statement.tokens) = .ok p) :
    p.Consists d (statements.flatMap Statement.items) := by
  have items : ∀ item ∈ statements.flatMap Statement.items, item.WellFormed d := by
    intro item hitem
    have ⟨s, hs, hmem⟩ := List.mem_flatMap.mp hitem
    exact (hstatements s hs).items item hmem
  have tokens : statements.flatMap Statement.tokens =
      (statements.flatMap Statement.items).flatMap Item.tokens :=
    List.flatMap_assoc.symm
  rw [tokens] at h
  exact consists_of_parse items h

/-- An address at which a statement begins. -/
def BeginsAt (statements : List Statement) (s : Statement) (address : Nat) : Prop :=
  ∃ before after, statements = before ++ s :: after ∧ address = Statement.addressAfter before

section Places

variable {statements : List Statement} {s : Statement} {address : Nat}

theorem BeginsAt.mem (h : BeginsAt statements s address) : s ∈ statements := by
  obtain ⟨before, after, rfl, -⟩ := h
  exact List.mem_append_right _ List.mem_cons_self

theorem BeginsAt.le (h : BeginsAt statements s address) :
    address + s.items.length ≤ Statement.addressAfter statements := by
  obtain ⟨before, after, rfl, rfl⟩ := h
  rw [Statement.addressAfter_append]
  omega

theorem BeginsAt.getElem?_items (h : BeginsAt statements s address) {j : Nat} {item : Item}
    (hj : s.items[j]? = some item) :
    ∃ k, address + j = k + 1 ∧ (statements.flatMap Statement.items)[k]? = some item := by
  obtain ⟨before, after, rfl, rfl⟩ := h
  have hlt := (List.getElem?_eq_some_iff.mp hj).1
  refine ⟨(before.flatMap Statement.items).length + j, ?_, ?_⟩
  · unfold Statement.addressAfter
    omega
  · rw [List.flatMap_append, List.flatMap_cons, List.getElem?_append_right (Nat.le_add_right _ _),
      Nat.add_sub_cancel_left, List.getElem?_append_left hlt]
    exact hj

theorem exists_statement {k : Nat} {item : Item}
    (h : (statements.flatMap Statement.items)[k]? = some item) :
    ∃ s address j, BeginsAt statements s address ∧ s.items[j]? = some item ∧
      address + j = k + 1 := by
  induction statements generalizing k with
  | nil => cases h
  | cons first rest ih =>
    rw [List.flatMap_cons] at h
    by_cases hlt : k < first.items.length
    · rw [List.getElem?_append_left hlt] at h
      exact ⟨first, 1, k, ⟨[], rest, rfl, rfl⟩, h, Nat.add_comm _ _⟩
    · rw [List.getElem?_append_right (Nat.le_of_not_lt hlt)] at h
      obtain ⟨s, address, j, ⟨before, after, rfl, rfl⟩, hj, hk⟩ := ih h
      refine ⟨s, _, j, ⟨first :: before, after, rfl, rfl⟩, hj, ?_⟩
      unfold Statement.addressAfter at hk ⊢
      rw [List.flatMap_cons, List.length_append]
      omega

end Places

structure Holds (d : Dialect) (statements : List Statement) (p : Program) (words : Array Word) :
    Prop where
  wellFormed : ∀ s ∈ statements, s.WellFormed d
  consists : p.Consists d (statements.flatMap Statement.items)
  image : p.IsImage words

section Images

variable {statements : List Statement} {p : Program} {words : Array Word} {s : Statement}
  {address : Nat}

theorem Holds.codeEnd_eq (h : Holds d statements p words) :
    p.codeEnd = Statement.addressAfter statements := by
  unfold Program.codeEnd Statement.addressAfter
  rw [h.consists.length_eq, Nat.add_comm]

/-- The code word of an item, and the word of the image that it became. -/
structure Placed (d : Dialect) (items : List Item) (p : Program) (words : Array Word) (item : Item)
    (address : Nat) (word : CodeWord) (value : Word) : Prop where
  code : ∃ k, address = k + 1 ∧ p.code[k]? = some word ∧
    item.token.content? d (Item.strings (items.take k)) = some word.content
  label : word.label = item.label? d
  position : word.position = item.token.position
  meant : p.meant? word = some value
  stored : words[address]? = some value

theorem Holds.exists_placed (h : Holds d statements p words)
    (haddress : BeginsAt statements s address)
    {j : Nat} {item : Item} (hj : s.items[j]? = some item) :
    ∃ word value, Placed d (statements.flatMap Statement.items) p words item (address + j) word
      value := by
  have ⟨k, hk, hitem⟩ := haddress.getElem?_items hj
  have ⟨word, hword, hmeans⟩ := h.consists.word k item hitem
  have ⟨hcontent, hlabel, hposition⟩ := word?_eq_some_iff.mp hmeans
  have hmeant := h.image.code k word hword
  have inside : k + 1 < words.size := by
    have hlt := (List.getElem?_eq_some_iff.mp hword).1
    rw [h.image.size_eq]
    omega
  rw [Array.getElem?_eq_getElem inside] at hmeant
  refine ⟨word, words[k + 1], ⟨k, hk, hword, hcontent⟩, hlabel, hposition, hmeant.symm, ?_⟩
  rw [hk, Array.getElem?_eq_getElem inside]

theorem Placed.getElem?_code {items : List Item} {item : Item} {word : CodeWord} {value : Word}
    (h : Placed d items p words item address word value) : p.code[address - 1]? = some word := by
  obtain ⟨k, rfl, hword, _⟩ := h.code
  exact hword

theorem Holds.getElem?_opcode (h : Holds d statements p words)
    (haddress : BeginsAt statements s address) :
    words[address]? = some s.instruction.opcode := by
  have ⟨word, value, placed⟩ := h.exists_placed (j := 0) haddress rfl
  obtain ⟨_, _, _, hcontent⟩ := placed.code
  have hopcode := (h.wellFormed s haddress.mem).opcode
  rw [content?_of_ne_string hopcode (fun _ => Content.noConfusion)] at hcontent
  have meant := placed.meant
  unfold Program.meant? at meant
  rw [← Option.some.inj hcontent] at meant
  exact placed.stored.trans meant.symm

end Images

theorem symbol_of_addToken {draft draft' : Draft} {t : Token}
    (h : draft.addToken d t = .ok draft') {block : DataBlock}
    (hblock : block ∈ draft'.data.toList) :
    block ∈ draft.data.toList ∨ ∀ name, block.symbol ≠ .user name := by
  have pushed : ∀ {new : DataBlock}, (∀ name, new.symbol ≠ .user name) →
      block ∈ (draft.data.push new).toList →
        block ∈ draft.data.toList ∨ ∀ name, block.symbol ≠ .user name := by
    intro new hnew hmem
    rw [Array.toList_push, List.mem_append, List.mem_singleton] at hmem
    obtain hold | rfl := hmem
    · exact .inl hold
    · exact .inr hnew
  unfold Draft.addToken at h
  split at h
  · rename_i text hlexeme
    unfold Draft.addWord at h
    split at h
    case h_1 | h_2 | h_3 =>
      cases h
      exact .inl hblock
    case h_4 name size _ =>
      cases h
      unfold Draft.declareBuffer at hblock
      split at hblock
      · exact .inl hblock
      · exact pushed (fun _ => Symbol.noConfusion) hblock
    case h_5 =>
      split at h
      · cases h
      · cases h
        exact .inl hblock
  · cases h
    exact pushed (fun _ => Symbol.noConfusion) hblock

theorem symbol_ne_user_of_parse {tokens : List Token} {p : Program}
    (h : Program.parse d tokens = .ok p) : ∀ block ∈ p.data, ∀ name, block.symbol ≠ .user name := by
  have ⟨draft, hdraft, hfinish⟩ := bind_eq_ok_iff.mp h
  have start : ∀ block ∈ (#[] : Array DataBlock).toList, ∀ name, block.symbol ≠ .user name := by
    simp
  have reached : ∀ block ∈ draft.data.toList, ∀ name, block.symbol ≠ .user name :=
    foldlM_induction (P := fun draft : Draft =>
        ∀ block ∈ draft.data.toList, ∀ name, block.symbol ≠ .user name)
      (fun _ _ _ hdraft hadd block hblock =>
        (symbol_of_addToken hadd hblock).elim (hdraft block) id) start hdraft
  cases hfinish
  exact reached

end BusMachine.Assembly
