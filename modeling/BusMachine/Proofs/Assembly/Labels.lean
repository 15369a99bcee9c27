import BusMachine.Proofs.Assembly.Annotations
import BusMachine.Proofs.Assembly.Loading
import BusMachine.Proofs.Assembly.Reading

/-!
Labels of the text and the code words that they are put in front of. A declaration waits for the
next code word, and only one can wait: a label is lost where another one is declared before a word
comes.
-/

namespace BusMachine.Assembly

/-- A token that neither declares a label nor puts a word into the code. -/
structure Token.Dropped (d : Dialect) (t : Token) : Prop where
  label : t.label? d = none
  content : t.content? d 0 = none

def Declares (d : Dialect) (tokens : List Token) (i : Nat) (symbol : Symbol) : Prop :=
  ∃ t, tokens[i]? = some t ∧ t.label? d = some symbol

def EmitsAt (d : Dialect) (tokens : List Token) (e : Nat) : Prop :=
  ∃ t, tokens[e]? = some t ∧ (t.content? d 0).isSome = true

/-- Token `i` declares a symbol, token `e` puts a word into the code, and those between them do
neither. -/
structure Marks (d : Dialect) (tokens : List Token) (symbol : Symbol) (i e : Nat) : Prop where
  lt : i < e
  declares : Declares d tokens i symbol
  emits : EmitsAt d tokens e
  between : ∀ j, i < j → j < e → ∀ t, tokens[j]? = some t → t.Dropped d

/-- Token `i` is the first declaration of `:name`, and token `e` is the first one behind it that
puts a word into the code, whatever else is declared between them. -/
structure Precedes (d : Dialect) (tokens : List Token) (name : String) (i e : Nat) : Prop where
  lt : i < e
  declares : Declares d tokens i (.user name)
  first : ∀ j < i, ¬ Declares d tokens j (.user name)
  emits : EmitsAt d tokens e
  next : ∀ j, i < j → j < e → ¬ EmitsAt d tokens j

section Decidable

variable (d : Dialect) (tokens : List Token)

instance (t : Token) : Decidable (t.Dropped d) :=
  decidable_of_iff (t.label? d = none ∧ t.content? d 0 = none)
    ⟨fun h => ⟨h.1, h.2⟩, fun h => ⟨h.label, h.content⟩⟩

instance (i : Nat) (symbol : Symbol) : Decidable (Declares d tokens i symbol) :=
  decidable_of_iff (tokens[i]?.bind (Token.label? d) = some symbol) Option.bind_eq_some_iff

instance (e : Nat) : Decidable (EmitsAt d tokens e) :=
  decidable_of_iff (∃ t ∈ tokens[e]?, (t.content? d 0).isSome = true) Iff.rfl

instance (symbol : Symbol) (i e : Nat) : Decidable (Marks d tokens symbol i e) :=
  decidable_of_iff
    (i < e ∧ Declares d tokens i symbol ∧ EmitsAt d tokens e ∧
      ∀ j < e, i < j → ∀ t ∈ tokens[j]?, t.Dropped d)
    ⟨fun h => ⟨h.1, h.2.1, h.2.2.1, fun j hi he => h.2.2.2 j he hi⟩,
      fun h => ⟨h.lt, h.declares, h.emits, fun j he hi => h.between j hi he⟩⟩

instance (name : String) (i e : Nat) : Decidable (Precedes d tokens name i e) :=
  decidable_of_iff
    (i < e ∧ Declares d tokens i (.user name) ∧ (∀ j < i, ¬ Declares d tokens j (.user name)) ∧
      EmitsAt d tokens e ∧ ∀ j < e, i < j → ¬ EmitsAt d tokens j)
    ⟨fun h => ⟨h.1, h.2.1, h.2.2.1, h.2.2.2.1, fun j hi he => h.2.2.2.2 j he hi⟩,
      fun h => ⟨h.lt, h.declares, h.first, h.emits, fun j he hi => h.next j hi he⟩⟩

end Decidable

/-- Behind the first `e` tokens a symbol waits for a code word: it was declared among them, and what
follows its declaration is dropped. -/
def Waits (d : Dialect) (tokens : List Token) (symbol : Symbol) (e : Nat) : Prop :=
  ∃ i < e, Declares d tokens i symbol ∧
    ∀ j, i < j → j < e → ∀ t, tokens[j]? = some t → t.Dropped d

def waiting (d : Dialect) (tokens : List Token) : Option Symbol :=
  tokens.foldl (fun label t => if (t.content? d 0).isSome then none else (t.label? d).or label) none

section Waiting

variable {d : Dialect} {tokens : List Token} {t : Token} {symbol : Symbol} {e : Nat}

theorem exists_marks_iff :
    (∃ i, Marks d tokens symbol i e) ↔ Waits d tokens symbol e ∧ EmitsAt d tokens e := by
  constructor
  · rintro ⟨i, marks⟩
    exact ⟨⟨i, marks.lt, marks.declares, marks.between⟩, marks.emits⟩
  · rintro ⟨⟨i, lt, declares, between⟩, emits⟩
    exact ⟨i, lt, declares, emits, between⟩

theorem label?_of_emits (h : (t.content? d 0).isSome = true) : t.label? d = none := by
  unfold Token.content? at h
  unfold Token.label?
  cases hlexeme : t.lexeme with
  | string codes terminated => rfl
  | word text =>
    rw [hlexeme] at h
    cases hmeaning : Meaning.ofWord d text <;> simp_all [Meaning.content?]

theorem waits_succ_of_emits (ht : tokens[e]? = some t) (h : (t.content? d 0).isSome = true) :
    ¬ Waits d tokens symbol (e + 1) := by
  rintro ⟨i, hi, ⟨u, hu, hlabel⟩, dropped⟩
  obtain hlt | rfl := Nat.lt_succ_iff_lt_or_eq.mp hi
  · simp [(dropped e hlt (Nat.lt_succ_self e) t ht).content] at h
  · cases ht.symm.trans hu
    simp [label?_of_emits h] at hlabel

theorem waits_succ_of_label {label : Symbol} (ht : tokens[e]? = some t)
    (h : t.label? d = some label) : Waits d tokens symbol (e + 1) ↔ label = symbol := by
  constructor
  · rintro ⟨i, hi, ⟨u, hu, hlabel⟩, dropped⟩
    obtain hlt | rfl := Nat.lt_succ_iff_lt_or_eq.mp hi
    · simp [(dropped e hlt (Nat.lt_succ_self e) t ht).label] at h
    · cases ht.symm.trans hu
      exact Option.some.inj (h.symm.trans hlabel)
  · rintro rfl
    exact ⟨e, Nat.lt_succ_self e, ⟨t, ht, h⟩, fun j _ _ => by omega⟩

theorem waits_succ_of_dropped (h : ∀ t, tokens[e]? = some t → t.Dropped d) :
    Waits d tokens symbol (e + 1) ↔ Waits d tokens symbol e := by
  constructor
  · rintro ⟨i, hi, declares, dropped⟩
    obtain hlt | rfl := Nat.lt_succ_iff_lt_or_eq.mp hi
    · exact ⟨i, hlt, declares, fun j hij hj => dropped j hij (Nat.lt_succ_of_lt hj)⟩
    · obtain ⟨u, hu, hlabel⟩ := declares
      simp [(h u hu).label] at hlabel
  · rintro ⟨i, hi, declares, dropped⟩
    refine ⟨i, Nat.lt_succ_of_lt hi, declares, fun j hij hj => ?_⟩
    obtain hlt | rfl := Nat.lt_succ_iff_lt_or_eq.mp hj
    · exact dropped j hij hlt
    · exact h

theorem waiting_concat : waiting d (tokens ++ [t]) =
    if (t.content? d 0).isSome then none else (t.label? d).or (waiting d tokens) := by
  simp [waiting]

theorem waiting_take_iff : waiting d (tokens.take e) = some symbol ↔ Waits d tokens symbol e := by
  induction e with
  | zero => simp [waiting, Waits]
  | succ e ih =>
    rw [List.take_add_one]
    cases ht : tokens[e]? with
    | none =>
      have dropped : ∀ t, tokens[e]? = some t → t.Dropped d := by simp [ht]
      simp [ih, waits_succ_of_dropped dropped]
    | some t =>
      rw [Option.toList_some, waiting_concat]
      cases hcontent : t.content? d 0 with
      | some content => simp [waits_succ_of_emits ht (by rw [hcontent]; rfl)]
      | none =>
        cases hlabel : t.label? d with
        | some label => simp [waits_succ_of_label ht hlabel]
        | none =>
          have dropped : ∀ u, tokens[e]? = some u → u.Dropped d := fun u hu =>
            Option.some.inj (ht.symm.trans hu) ▸ ⟨hlabel, hcontent⟩
          simp [ih, waits_succ_of_dropped dropped]

end Waiting

section Labels

variable {d : Dialect} {tokens : List Token} {t : Token} {draft draft' : Draft}

theorem pending_of_addToken (h : draft.addToken d t = .ok draft')
    (hcontent : t.content? d 0 = none) : draft'.pending = (t.label? d).or draft.pending := by
  cases hlabel : t.label? d with
  | some label =>
    rw [addToken_label hlabel] at h
    cases h
    rfl
  | none =>
    unfold Token.content? at hcontent
    unfold Token.label? at hlabel
    unfold Draft.addToken Draft.addWord at h
    cases hlexeme : t.lexeme with
    | string codes terminated => simp [hlexeme] at hcontent
    | word text =>
      cases hmeaning : Meaning.ofWord d text <;>
        simp only [hlexeme, hmeaning, Meaning.content?, reduceCtorEq] at h hcontent hlabel
      case unknown =>
        split at h
        · cases h
        · cases h
          rfl

/-- A code word has the label that waited for it in front of its token. -/
def Labelled (d : Dialect) (tokens : List Token) (k : Nat) (word : CodeWord) : Prop :=
  ∃ e, EmitsAt d tokens e ∧ codeIndex d tokens e = k ∧ word.label = waiting d (tokens.take e)

theorem EmitsAt.lt_length {e : Nat} (h : EmitsAt d tokens e) : e < tokens.length := by
  obtain ⟨t, ht, -⟩ := h
  exact (List.getElem?_eq_some_iff.mp ht).1

theorem Labelled.append {k : Nat} {word : CodeWord} (h : Labelled d tokens k word) :
    Labelled d (tokens ++ [t]) k word := by
  obtain ⟨e, emits, rfl, label⟩ := h
  have hlt := emits.lt_length
  obtain ⟨u, hu, hcontent⟩ := emits
  refine ⟨e, ⟨u, ?_, hcontent⟩, codeIndex_append (Nat.le_of_lt hlt), ?_⟩
  · rw [List.getElem?_append_left hlt, hu]
  · rw [List.take_append_of_le_length (Nat.le_of_lt hlt), label]

structure Draft.Labels (d : Dialect) (tokens : List Token) (draft : Draft) : Prop where
  reads : draft.Reads d tokens
  pending : draft.pending = waiting d tokens
  label : ∀ (k : Nat) (word : CodeWord), draft.code[k]? = some word → Labelled d tokens k word

theorem Draft.Labels.concat (h : draft.Labels d tokens) (hadd : draft.addToken d t = .ok draft') :
    draft'.Labels d (tokens ++ [t]) := by
  have code := addsCode_of_addToken hadd
  have emits := content?_isSome (d := d) t 0 draft.strings
  cases hcontent : t.content? d draft.strings with
  | none =>
    rw [hcontent] at emits
    refine ⟨h.reads.concat hadd, ?_, fun k word hword => ?_⟩
    · rw [pending_of_addToken hadd (by simpa using emits), h.pending, waiting_concat]
      simp [emits]
    · rw [(code.skipped hcontent).1] at hword
      exact (h.label k word hword).append
  | some content =>
    rw [hcontent] at emits
    obtain ⟨hcode, hpending⟩ := code.emitted content hcontent
    refine ⟨h.reads.concat hadd, ?_, fun k word hword => ?_⟩
    · rw [hpending, waiting_concat]
      simp [emits]
    · rw [hcode, Array.getElem?_push, h.reads.size] at hword
      split at hword
      · next last =>
        cases hword
        refine ⟨tokens.length, ⟨t, List.getElem?_concat_length, emits⟩, ?_, ?_⟩
        · rw [codeIndex_append (Nat.le_refl _), last]
        · rw [List.take_left, h.pending]
      · exact (h.label k word hword).append

theorem labels_of_foldlM (hadd : tokens.foldlM (Draft.addToken d) {} = .ok draft) :
    draft.Labels d tokens :=
  read_induction ⟨reads_nil, rfl, by simp⟩ (fun _ _ _ _ => Draft.Labels.concat) hadd

theorem codeIndex_le {e e' : Nat} (h : e ≤ e') : codeIndex d tokens e ≤ codeIndex d tokens e' :=
  (List.take_sublist_take_left h).countP_le

theorem EmitsAt.codeIndex_lt {e e' : Nat} (h : EmitsAt d tokens e) (hlt : e < e') :
    codeIndex d tokens e < codeIndex d tokens e' := by
  obtain ⟨t, ht, hcontent⟩ := h
  have upTo : codeIndex d tokens (e + 1) = codeIndex d tokens e + 1 := by
    unfold codeIndex
    rw [List.take_add_one, ht, Option.toList_some, List.countP_append, List.countP_singleton,
      if_pos hcontent]
  have more : codeIndex d tokens (e + 1) ≤ codeIndex d tokens e' := codeIndex_le hlt
  omega

theorem EmitsAt.eq_of_codeIndex_eq {e e' : Nat} (h : EmitsAt d tokens e)
    (h' : EmitsAt d tokens e') (heq : codeIndex d tokens e = codeIndex d tokens e') : e = e' := by
  obtain hlt | rfl | hlt := Nat.lt_trichotomy e e'
  · have := h.codeIndex_lt hlt
    omega
  · rfl
  · have := h'.codeIndex_lt hlt
    omega

theorem EmitsAt.exists_word {e : Nat} (h : EmitsAt d tokens e) (reads : draft.Reads d tokens) :
    ∃ word, draft.code[codeIndex d tokens e]? = some word := by
  obtain ⟨t, ht, hcontent⟩ := h
  rw [content?_isSome t 0 (stringsBefore tokens e)] at hcontent
  obtain ⟨content, hcontent⟩ := Option.isSome_iff_exists.mp hcontent
  obtain ⟨word, hword, -⟩ := reads.word e t content ht hcontent
  exact ⟨word, hword⟩

variable {p : Program} {symbol : Symbol}

theorem label_iff_of_parse (hparse : Program.parse d tokens = .ok p) {k : Nat} :
    (∃ word, p.code[k]? = some word ∧ word.label = some symbol) ↔
      ∃ i e, Marks d tokens symbol i e ∧ codeIndex d tokens e = k := by
  obtain ⟨draft, hdraft, hfinish⟩ := bind_eq_ok_iff.mp hparse
  have labels := labels_of_foldlM hdraft
  cases hfinish
  constructor
  · rintro ⟨word, hword, hlabel⟩
    obtain ⟨e, emits, hk, label⟩ := labels.label k word (by simpa [Draft.finish] using hword)
    obtain ⟨i, marks⟩ := exists_marks_iff.mpr ⟨waiting_take_iff.mp (label.symm.trans hlabel), emits⟩
    exact ⟨i, e, marks, hk⟩
  · rintro ⟨i, e, marks, rfl⟩
    obtain ⟨waits, emits⟩ := exists_marks_iff.mp ⟨i, marks⟩
    obtain ⟨word, hword⟩ := emits.exists_word labels.reads
    obtain ⟨e', emits', heq, label⟩ := labels.label _ word hword
    obtain rfl := emits'.eq_of_codeIndex_eq emits heq
    exact ⟨word, by simpa [Draft.finish] using hword, label.trans (waiting_take_iff.mpr waits)⟩

theorem labelAddress?_iff_of_parse (hparse : Program.parse d tokens = .ok p) {address : Nat} :
    p.labelAddress? symbol = some address ↔ ∃ i e, Marks d tokens symbol i e ∧
      (∀ i' e', Marks d tokens symbol i' e' → e ≤ e') ∧ address = codeIndex d tokens e + 1 := by
  constructor
  · intro h
    obtain ⟨k, hk, rfl⟩ := Option.map_eq_some_iff.mp h
    have ⟨hlt, hlabel, first⟩ := List.findIdx?_eq_some_iff_getElem.mp hk
    have ⟨i, e, marks, he⟩ := (label_iff_of_parse hparse).mp
      ⟨_, List.getElem?_eq_getElem hlt, eq_of_beq hlabel⟩
    refine ⟨i, e, marks, fun i' e' marks' => Nat.le_of_not_lt fun earlier => ?_, by rw [he]⟩
    have ⟨word, hword, hlabel'⟩ := (label_iff_of_parse hparse).mpr ⟨i', e', marks', rfl⟩
    have before : codeIndex d tokens e' < k := he ▸ marks'.emits.codeIndex_lt earlier
    have ⟨_, hget⟩ := List.getElem?_eq_some_iff.mp hword
    have other := first _ before
    simp [hget, hlabel'] at other
  · rintro ⟨i, e, marks, least, rfl⟩
    have ⟨word, hword, hlabel⟩ := (label_iff_of_parse hparse).mpr ⟨i, e, marks, rfl⟩
    have ⟨hlt, hget⟩ := List.getElem?_eq_some_iff.mp hword
    refine Option.map_eq_some_iff.mpr ⟨codeIndex d tokens e, ?_, rfl⟩
    refine List.findIdx?_eq_some_iff_getElem.mpr ⟨hlt, by simp [hget, hlabel], fun k hk => ?_⟩
    rw [beq_iff_eq]
    intro hlabel'
    have ⟨i', e', marks', he'⟩ := (label_iff_of_parse hparse).mp
      ⟨_, List.getElem?_eq_getElem (Nat.lt_trans hk hlt), hlabel'⟩
    have later : codeIndex d tokens e ≤ codeIndex d tokens e' := codeIndex_le (least i' e' marks')
    omega

theorem declaredAddress?_user (hparse : Program.parse d tokens = .ok p) (name : String) :
    p.declaredAddress? (.user name) = p.labelAddress? (.user name) := by
  unfold Program.declaredAddress?
  rw [Program.blockAddress?_user (symbol_ne_user_of_parse hparse), Option.or_none]

theorem Precedes.declaredAddress?_iff {name : String} {i e : Nat}
    (h : Precedes d tokens name i e) (hparse : Program.parse d tokens = .ok p) :
    p.declaredAddress? (.user name) = some (codeIndex d tokens e + 1) ↔
      ∃ j, Marks d tokens (.user name) j e := by
  rw [declaredAddress?_user hparse, labelAddress?_iff_of_parse hparse]
  constructor
  · rintro ⟨j, e', marks, -, heq⟩
    obtain rfl := marks.emits.eq_of_codeIndex_eq h.emits (Nat.succ.inj heq).symm
    exact ⟨j, marks⟩
  · rintro ⟨j, marks⟩
    refine ⟨j, e, marks, fun j' e' marks' => Nat.le_of_not_lt fun earlier => ?_, rfl⟩
    have behind : i ≤ j' := Nat.le_of_not_lt fun before => h.first j' before marks'.declares
    exact h.next e' (Nat.lt_of_le_of_lt behind marks'.lt) earlier marks'.emits

end Labels

/-- What a label in front of token `e` is for: no reference to it is refused as undefined, and each
one in an image is the address of the code word of that token. -/
structure Usable (d : Dialect) (memorySize : Nat) (source name : String) (e : Nat) : Prop where
  defined : ∀ position, Image.ofSource d memorySize source ≠
    .error { cause := .undefinedLabel (Symbol.user name).text, position }
  resolved : ∀ image, Image.ofSource d memorySize source = .ok image → ∀ k t,
    (Token.scan source)[k]? = some t → t.content? d 0 = some (.reference (.user name)) →
      image.words[codeIndex d (Token.scan source) k + 1]? =
        some (codeIndex d (Token.scan source) e + 1)

section References

variable {d : Dialect} {memorySize : Nat} {source name : String} {p : Program}

theorem cause_of_firstUnknown? {tokens : List Token} {fault : Fault}
    (h : d.firstUnknown? tokens = some fault) : ∃ word, fault.cause = .unknownToken word := by
  unfold Dialect.firstUnknown? at h
  split at h
  · have ⟨t, _, unknown⟩ := List.exists_of_findSome?_eq_some h
    obtain ⟨word, -, -, rfl⟩ := unknown?_eq_some_iff.mp unknown
    exact ⟨word, rfl⟩
  · cases h

theorem exists_undeclared {wordSize : Nat} {word : CodeWord} {text : String}
    (h : p.offence? wordSize word = some (.undefinedLabel text)) :
    ∃ symbol, symbol.text = text ∧ p.declaredAddress? symbol = none := by
  unfold Program.offence? at h
  cases hcontent : word.content with
  | word value => simp [hcontent] at h
  | reference symbol =>
    cases haddress : p.declaredAddress? symbol with
    | none =>
      simp only [hcontent, haddress, Option.some.injEq, Cause.undefinedLabel.injEq] at h
      exact ⟨symbol, h, haddress⟩
    | some address =>
      simp only [hcontent, haddress] at h
      split at h <;> cases h

theorem ofSource_ne_undefinedLabel {address : Nat}
    (hparse : Program.parse d (Token.scan source) = .ok p)
    (h : p.declaredAddress? (.user name) = some address) (position : Option Position) :
    Image.ofSource d memorySize source ≠
      .error { cause := .undefinedLabel (Symbol.user name).text, position } := by
  rw [ofSource_eq_of_parse memorySize hparse, ← resolve_min]
  split
  · simp
  · intro herror
    cases hresolve : (Layout.ofProgram p).resolve p (min d.wordSize addressSpace) with
    | ok words => simp [hresolve, Except.map] at herror
    | error fault =>
      simp only [hresolve, Except.map, Except.error.injEq] at herror
      have ⟨_, word, _, _, _, offence, _⟩ :=
        (Layout.resolve_eq_error_iff (Nat.min_le_right _ _)).mp hresolve
      rw [herror] at offence
      have ⟨symbol, htext, undeclared⟩ := exists_undeclared offence
      rw [Symbol.text_injective htext, h] at undeclared
      cases undeclared

theorem usable_of_declaredAddress? {e : Nat}
    (hparse : Program.parse d (Token.scan source) = .ok p)
    (h : p.declaredAddress? (.user name) = some (codeIndex d (Token.scan source) e + 1)) :
    Usable d memorySize source name e where
  defined := ofSource_ne_undefinedLabel hparse h
  resolved image himage k t ht hcontent := by
    have ⟨draft, hdraft, hfinish⟩ := bind_eq_ok_iff.mp hparse
    have reads := reads_of_foldlM hdraft
    have content : t.content? d (stringsBefore (Token.scan source) k) =
        some (.reference (.user name)) :=
      content?_of_ne_string hcontent (by simp) _
    have ⟨word, hword, hmeans, _⟩ := reads.word k t _ ht content
    have code : p.code[codeIndex d (Token.scan source) k]? = some word := by
      cases hfinish
      simpa [Draft.finish] using hword
    rw [(isImage_of_ofSource himage hparse).1.code _ word code, Program.meant?, hmeans]
    exact h

end References

/-- A label whose declaration comes before a code word can be used, unless another label is declared
between its last declaration and that word. The first code word behind its first declaration has its
address exactly where none is. -/
theorem usable_of_marks {d : Dialect} {source name : String} {i e : Nat}
    (h : Precedes d (Token.scan source) name i e) :
    (∀ p, Program.parse d (Token.scan source) = .ok p →
      ((Layout.ofProgram p).address? (.user name) =
          some (codeIndex d (Token.scan source) e + 1) ↔
        ∃ j, Marks d (Token.scan source) (.user name) j e)) ∧
    ∀ j memorySize, Marks d (Token.scan source) (.user name) j e →
      Usable d memorySize source name e := by
  have address : ∀ p, Program.parse d (Token.scan source) = .ok p →
      ((Layout.ofProgram p).address? (.user name) =
          some (codeIndex d (Token.scan source) e + 1) ↔
        ∃ j, Marks d (Token.scan source) (.user name) j e) := fun p hparse => by
    rw [Layout.address?_ofProgram, h.declaredAddress?_iff hparse]
  refine ⟨address, fun j memorySize marks => ?_⟩
  cases hparse : Program.parse d (Token.scan source) with
  | ok p =>
    exact usable_of_declaredAddress? hparse ((h.declaredAddress?_iff hparse).mpr ⟨j, marks⟩)
  | error fault =>
    have unknown := parse_eq_error_iff.mp hparse
    have refused : Image.ofSource d memorySize source = .error fault :=
      ofSource_eq_error_of_unknown unknown
    have ⟨word, cause⟩ := cause_of_firstUnknown? unknown
    refine ⟨fun position => ?_, fun image himage => ?_⟩
    · rw [refused]
      rintro ⟨⟩
      cases cause
    · rw [refused] at himage
      cases himage

theorem usable_of_marks_again :
    Precedes (.ofArchitecture Standard.defaultArchitecture false)
        (Token.scan "::a ::b ::a ? hlt jmp :a") "a" 0 4 ∧
      Usable (.ofArchitecture Standard.defaultArchitecture false) 256 "::a ::b ::a ? hlt jmp :a"
        "a" 4 := by
  have precedes : Precedes (.ofArchitecture Standard.defaultArchitecture false)
      (Token.scan "::a ::b ::a ? hlt jmp :a") "a" 0 4 := by decide +kernel
  have marks : Marks (.ofArchitecture Standard.defaultArchitecture false)
      (Token.scan "::a ::b ::a ? hlt jmp :a") (.user "a") 2 4 := by decide +kernel
  exact ⟨precedes, (usable_of_marks precedes).2 2 256 marks⟩

def forsaking : Program where
  code := [⟨.word 2, some (.user "b"), ⟨1, 9⟩⟩, ⟨.word 1, none, ⟨1, 13⟩⟩,
    ⟨.reference (.user "a"), none, ⟨1, 17⟩⟩]

theorem not_usable_of_two_labels :
    Precedes (.ofArchitecture Standard.defaultArchitecture true)
        (Token.scan "::a ::b hlt jmp :a") "a" 0 2 ∧
      ¬ Usable (.ofArchitecture Standard.defaultArchitecture true) 256 "::a ::b hlt jmp :a"
        "a" 2 := by
  have parsed : Program.parse (.ofArchitecture Standard.defaultArchitecture true)
      (Token.scan "::a ::b hlt jmp :a") = .ok forsaking :=
    eq_ok_of_toOption (by decide +kernel)
  have assembled : Assembles _ 256 _ forsaking := assembles_of_parse (by decide) parsed
  have refused : forsaking.FirstOffence 256
      { cause := .undefinedLabel ":a", position := some ⟨1, 17⟩ } :=
    ⟨forsaking.code.take 2, ⟨.reference (.user "a"), none, ⟨1, 17⟩⟩, [], rfl, by decide, by decide,
      rfl⟩
  refine ⟨by decide +kernel, fun usable => ?_⟩
  exact usable.defined _ ((assembled.fault (by decide) _).mpr refused)

end BusMachine.Assembly
