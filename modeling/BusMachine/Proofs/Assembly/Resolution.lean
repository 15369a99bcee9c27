import BusMachine.Proofs.Acceptance
import BusMachine.Proofs.Assembly.Addresses

/-!
Resolution of references: when a program has an image, which one it is, and which fault is reported
when it has none.
-/

namespace BusMachine.Assembly

namespace Program

/-- The word that a code word stands for when all addresses are known. -/
def meant? (p : Program) (word : CodeWord) : Option Word :=
  match word.content with
  | .word value => some value
  | .reference symbol => p.declaredAddress? symbol

/-- What keeps a code word from being a word of memory. -/
def offence? (p : Program) (wordSize : Nat) (word : CodeWord) : Option Cause :=
  match word.content with
  | .word _ => none
  | .reference symbol =>
    match p.declaredAddress? symbol with
    | none => some (.undefinedLabel symbol.text)
    | some address =>
      if address < wordSize then none else some (.addressOverflow symbol.text address)

/-- All references are to declared symbols with addresses that are words. -/
def Resolvable (p : Program) (wordSize : Nat) : Prop :=
  ∀ word ∈ p.code, ∀ symbol, word.content = .reference symbol →
    ∃ address, p.declaredAddress? symbol = some address ∧ address < wordSize

/-- The fault of the first code word that cannot be resolved. -/
def FirstOffence (p : Program) (wordSize : Nat) (fault : Fault) : Prop :=
  ∃ before word after, p.code = before ++ word :: after ∧
    (∀ earlier ∈ before, p.offence? wordSize earlier = none) ∧
    p.offence? wordSize word = some fault.cause ∧ fault.position = some word.position

/-- Memory that holds 0, the code and the data of a program, one after the other. -/
structure IsImage (p : Program) (words : Array Word) : Prop where
  size_eq : words.size = 1 + p.code.length + dataLength p.data
  reserved : words[0]? = some 0
  code : ∀ (i : Nat) (word : CodeWord), p.code[i]? = some word → words[i + 1]? = p.meant? word
  data : ∀ (j : Nat) (block : DataBlock), p.data[j]? = some block →
    ∀ k < block.words.length, words[p.blockStart j + k]? = block.words[k]?

theorem IsImage.size {p : Program} {words : Array Word} (h : p.IsImage words) :
    words.size = p.imageLength :=
  h.size_eq.trans p.imageLength_eq.symm

variable {p : Program} {wordSize : Nat}

theorem offence?_reference {word : CodeWord} {symbol : Symbol}
    (h : word.content = .reference symbol) :
    p.offence? wordSize word = none ↔
      ∃ address, p.declaredAddress? symbol = some address ∧ address < wordSize := by
  unfold offence?
  rw [h]
  cases haddress : p.declaredAddress? symbol with
  | none => simp [haddress]
  | some address =>
    by_cases hlt : address < wordSize <;> simp [haddress, hlt]

theorem resolvable_iff :
    p.Resolvable wordSize ↔ ∀ word ∈ p.code, p.offence? wordSize word = none := by
  constructor
  · intro h word hword
    cases hcontent : word.content with
    | word value =>
      unfold offence?
      rw [hcontent]
    | reference symbol => exact (offence?_reference hcontent).mpr (h word hword symbol hcontent)
  · intro h word hword symbol hcontent
    exact (offence?_reference hcontent).mp (h word hword)

theorem resolveWord_of_offence {word : CodeWord} {cause : Cause}
    (h : p.offence? wordSize word = some cause) :
    (Layout.ofProgram p).resolveWord wordSize word =
      .error { cause, position := some word.position } := by
  unfold offence? at h
  unfold Layout.resolveWord
  cases hcontent : word.content with
  | word value =>
    rw [hcontent] at h
    cases h
  | reference symbol =>
    rw [hcontent] at h
    dsimp only at h ⊢
    rw [Layout.address?_ofProgram]
    cases haddress : p.declaredAddress? symbol with
    | none =>
      rw [haddress] at h
      cases h
      rfl
    | some address =>
      rw [haddress] at h
      by_cases hlt : address < wordSize
      · simp [hlt] at h
      · have hrefused : ¬(address < wordSize ∧ address ≤ maxWord) := fun hboth => hlt hboth.1
        simp only [hlt, if_false, Option.some.injEq] at h
        simp only [hrefused, if_false, h]

theorem resolveWord_of_none (hw : wordSize ≤ addressSpace) {word : CodeWord}
    (h : p.offence? wordSize word = none) :
    ∃ value, p.meant? word = some value ∧
      (Layout.ofProgram p).resolveWord wordSize word = .ok value := by
  unfold Layout.resolveWord meant?
  cases hcontent : word.content with
  | word value => exact ⟨value, rfl, rfl⟩
  | reference symbol =>
    have ⟨address, haddress, hlt⟩ := (offence?_reference hcontent).mp h
    have hmax : address ≤ maxWord := Nat.le_of_lt_succ (Nat.lt_of_lt_of_le hlt hw)
    refine ⟨address, haddress, ?_⟩
    dsimp only
    rw [Layout.address?_ofProgram, haddress]
    simp only [hlt, hmax, and_self, if_true]

theorem resolveWord_eq_error_iff (hw : wordSize ≤ addressSpace) {word : CodeWord} {fault : Fault} :
    (Layout.ofProgram p).resolveWord wordSize word = .error fault ↔
      p.offence? wordSize word = some fault.cause ∧ fault.position = some word.position := by
  cases hoffence : p.offence? wordSize word with
  | none =>
    have ⟨value, _, hvalue⟩ := resolveWord_of_none hw hoffence
    simp [hvalue]
  | some cause =>
    rw [resolveWord_of_offence hoffence]
    constructor
    · intro h
      cases h
      exact ⟨rfl, rfl⟩
    · rintro ⟨hcause, hposition⟩
      cases hcause
      rw [← hposition]

theorem resolveWord_isOk (hw : wordSize ≤ addressSpace) (word : CodeWord) :
    (∃ value, (Layout.ofProgram p).resolveWord wordSize word = .ok value) ↔
      p.offence? wordSize word = none := by
  constructor
  · rintro ⟨value, hvalue⟩
    cases hoffence : p.offence? wordSize word with
    | none => rfl
    | some cause =>
      rw [resolveWord_of_offence hoffence] at hvalue
      cases hvalue
  · intro hoffence
    have ⟨value, _, hvalue⟩ := resolveWord_of_none hw hoffence
    exact ⟨value, hvalue⟩

end Program

namespace Layout

variable {p : Program} {wordSize : Nat}

theorem resolve_eq_ok_iff {words : Array Word} :
    (ofProgram p).resolve p wordSize = .ok words ↔
      ∃ code, List.Forall₂ (fun word value => (ofProgram p).resolveWord wordSize word = .ok value)
        p.code code ∧ words = ((0 :: code) ++ p.data.flatMap DataBlock.words).toArray := by
  unfold resolve
  rw [bind_eq_ok_iff]
  constructor
  · rintro ⟨code, hcode, h⟩
    exact ⟨code, mapM_eq_ok_iff.mp hcode, (Except.ok.inj h).symm⟩
  · rintro ⟨code, hcode, rfl⟩
    exact ⟨code, mapM_eq_ok_iff.mpr hcode, rfl⟩

theorem resolve_eq_error_iff (hw : wordSize ≤ addressSpace) {fault : Fault} :
    (ofProgram p).resolve p wordSize = .error fault ↔ p.FirstOffence wordSize fault := by
  have codeAlone : (ofProgram p).resolve p wordSize = .error fault ↔
      p.code.mapM ((ofProgram p).resolveWord wordSize) = .error fault := by
    unfold resolve
    rw [bind_eq_error_iff]
    constructor
    · rintro (h | ⟨code, -, h⟩)
      · exact h
      · cases h
    · exact Or.inl
  rw [codeAlone, mapM_eq_error_iff]
  simp only [Program.resolveWord_isOk hw, Program.resolveWord_eq_error_iff hw]
  rfl

theorem resolve_isOk (hw : wordSize ≤ addressSpace) :
    (∃ words, (ofProgram p).resolve p wordSize = .ok words) ↔ p.Resolvable wordSize := by
  rw [Program.resolvable_iff]
  constructor
  · rintro ⟨words, hwords⟩ word hword
    have ⟨code, hcode, _⟩ := resolve_eq_ok_iff.mp hwords
    have ⟨value, _, hvalue⟩ := exists_mem_right hcode hword
    exact (Program.resolveWord_isOk hw word).mp ⟨value, hvalue⟩
  · intro h
    cases hresolve : (ofProgram p).resolve p wordSize with
    | ok words => exact ⟨words, rfl⟩
    | error fault =>
      have ⟨before, word, after, hcode, _, hoffence, _⟩ :=
        (resolve_eq_error_iff hw).mp hresolve
      have hnone := h word (by simp [hcode])
      rw [hnone] at hoffence
      cases hoffence

theorem getElem?_flatMap_words (data : List DataBlock) {j : Nat} {block : DataBlock}
    (hj : data[j]? = some block) {k : Nat} (hk : k < block.words.length) :
    (data.flatMap DataBlock.words)[Program.dataLength (data.take j) + k]? = block.words[k]? := by
  induction data generalizing j with
  | nil => cases hj
  | cons first rest ih =>
    rw [List.flatMap_cons]
    cases j with
    | zero =>
      cases hj
      simp [List.getElem?_append_left hk]
    | succ j =>
      have later := ih hj
      have hindex : Program.dataLength ((first :: rest).take (j + 1)) + k =
          first.words.length + (Program.dataLength (rest.take j) + k) := by
        simp only [List.take_succ_cons, Program.dataLength_cons]
        omega
      rw [hindex, List.getElem?_append_right (Nat.le_add_right _ _), Nat.add_sub_cancel_left]
      exact later

theorem length_flatMap_words (data : List DataBlock) :
    (data.flatMap DataBlock.words).length = Program.dataLength data := by
  rw [List.length_flatMap]
  rfl

theorem isImage_of_resolve (hw : wordSize ≤ addressSpace) {words : Array Word}
    (h : (ofProgram p).resolve p wordSize = .ok words) : p.IsImage words := by
  have ⟨code, hcode, hwords⟩ := resolve_eq_ok_iff.mp h
  have hlength := hcode.length_eq
  subst hwords
  constructor
  · rw [List.size_toArray, List.length_append, List.length_cons,
      length_flatMap_words, ← hlength]
    omega
  · rfl
  · intro i word hword
    have ⟨value, hvalue, hresolve⟩ := exists_getElem?_right hcode hword
    have hoffence := (Program.resolveWord_isOk hw word).mp ⟨value, hresolve⟩
    have ⟨meant, hmeant, hresolve'⟩ := Program.resolveWord_of_none hw hoffence
    have hsame : value = meant := Except.ok.inj (hresolve.symm.trans hresolve')
    have hi : i < code.length := (List.getElem?_eq_some_iff.mp hvalue).1
    rw [List.getElem?_toArray, List.cons_append, List.getElem?_cons_succ,
      List.getElem?_append_left hi, hvalue, hmeant, hsame]
  · intro j block hblock k hk
    have stored := getElem?_flatMap_words p.data hblock hk
    have hindex : p.blockStart j + k =
        (0 :: code).length + (Program.dataLength (p.data.take j) + k) := by
      unfold Program.blockStart
      rw [List.length_cons, ← hlength]
      omega
    rw [List.getElem?_toArray, hindex, List.getElem?_append_right (Nat.le_add_right _ _),
      Nat.add_sub_cancel_left]
    exact stored

end Layout

end BusMachine.Assembly
