import BusMachine.Assembly.Image
import BusMachine.Proofs.Assembly.Resolution

/-!
From a source text to an image or a fault: a word without a meaning is reported first if parsing is
strict, then an image that does not fit in memory, and then a reference that cannot be resolved.
-/

namespace BusMachine.Assembly

/-- A word that is marked by its first character, a character, a mnemonic or begins with a
number. -/
def Dialect.recognises (d : Dialect) (word : String) : Bool :=
  match word.toList with
  | ':' :: _ => true
  | '$' :: _ => true
  | cs =>
    (Text.quotedChar? cs).isSome || (d.instructions.named? word).isSome ||
      (Text.leadingInteger? cs).isSome

def Token.unknown? (d : Dialect) (t : Token) : Option Fault :=
  match t.lexeme with
  | .word text =>
    if d.recognises text then none
    else some { cause := .unknownToken text, position := some t.position }
  | .string _ _ => none

/-- The fault of the first token that is refused, which can only be if parsing is strict. -/
def Dialect.firstUnknown? (d : Dialect) (tokens : List Token) : Option Fault :=
  if d.strict then tokens.findSome? (Token.unknown? d) else none

variable {d : Dialect}

theorem ofBuffer_ne_unknown (wordSize : Nat) (cs : List Char) :
    Meaning.ofBuffer wordSize cs ≠ .unknown := by
  unfold Meaning.ofBuffer
  dsimp only
  split <;> exact Meaning.noConfusion

theorem ofPlain_eq_unknown_iff {word : String} :
    Meaning.ofPlain d word = .unknown ↔
      (d.instructions.named? word).isSome = false ∧
        (Text.leadingInteger? word.toList).isSome = false := by
  unfold Meaning.ofPlain
  cases d.instructions.named? word with
  | some i => simp
  | none => cases Text.leadingInteger? word.toList <;> simp

theorem recognises_plain {word : String} (href : ∀ rest, word.toList ≠ ':' :: rest)
    (hbuffer : ∀ rest, word.toList ≠ '$' :: rest) :
    d.recognises word = ((Text.quotedChar? word.toList).isSome ||
      (d.instructions.named? word).isSome || (Text.leadingInteger? word.toList).isSome) := by
  unfold Dialect.recognises
  split
  · rename_i rest h
    exact absurd h (href rest)
  · rename_i rest h
    exact absurd h (hbuffer rest)
  · rfl

theorem ofWord_eq_unknown_iff {word : String} :
    Meaning.ofWord d word = .unknown ↔ d.recognises word = false := by
  unfold Meaning.ofWord
  split
  · rename_i name h
    simp [Dialect.recognises, h]
  · rename_i name h
    simp [Dialect.recognises, h]
  · rename_i declaration h
    simp [Dialect.recognises, h, ofBuffer_ne_unknown]
  · rename_i hlabel href hbuffer
    rw [recognises_plain href hbuffer]
    cases Text.quotedChar? word.toList with
    | some c => simp
    | none => simp [ofPlain_eq_unknown_iff]

theorem unknown?_eq_some_iff {t : Token} {fault : Fault} :
    t.unknown? d = some fault ↔ ∃ word, t.lexeme = .word word ∧ d.recognises word = false ∧
      fault = { cause := .unknownToken word, position := some t.position } := by
  unfold Token.unknown?
  cases t.lexeme with
  | string codes terminated => simp
  | word text =>
    cases h : d.recognises text with
    | true => simp [h]
    | false => simpa [h] using eq_comm

theorem addToken_eq_error_iff {draft : Draft} {t : Token} {fault : Fault} :
    draft.addToken d t = .error fault ↔ d.strict = true ∧ t.unknown? d = some fault := by
  unfold Draft.addToken Token.unknown?
  cases t.lexeme with
  | string codes terminated => simp
  | word text =>
    dsimp only
    unfold Draft.addWord
    cases hmeaning : Meaning.ofWord d text with
    | unknown =>
      have hunknown := ofWord_eq_unknown_iff.mp hmeaning
      cases d.strict <;> simp [hunknown]
    | _ =>
      have hknown : d.recognises text = true := by
        by_contra h
        have hunknown := ofWord_eq_unknown_iff.mpr (by simpa using h)
        rw [hmeaning] at hunknown
        cases hunknown
      simp [hknown]

theorem foldlM_addToken_eq_error_iff {tokens : List Token} {draft : Draft} {fault : Fault} :
    tokens.foldlM (Draft.addToken d) draft = .error fault ↔
      d.firstUnknown? tokens = some fault := by
  induction tokens generalizing draft with
  | nil =>
    unfold Dialect.firstUnknown?
    constructor
    · intro h
      cases h
    · intro h
      simp at h
  | cons t rest ih =>
    rw [List.foldlM_cons, bind_eq_error_iff, addToken_eq_error_iff]
    simp only [ih]
    unfold Dialect.firstUnknown?
    cases hstrict : d.strict with
    | false => simp
    | true =>
      have refused : ∀ e, draft.addToken d t = .error e ↔
          d.strict = true ∧ t.unknown? d = some e := fun e => addToken_eq_error_iff
      cases htoken : draft.addToken d t with
      | error e =>
        have hunknown := ((refused e).mp htoken).2
        simp [hunknown]
      | ok next =>
        have hknown : t.unknown? d = none := by
          cases hunknown : t.unknown? d with
          | none => rfl
          | some e =>
            have herror := (refused e).mpr ⟨hstrict, hunknown⟩
            rw [htoken] at herror
            cases herror
        simp [hknown]

theorem parse_eq_error_iff {tokens : List Token} {fault : Fault} :
    Program.parse d tokens = .error fault ↔ d.firstUnknown? tokens = some fault := by
  have added : tokens.foldlM (Draft.addToken d) {} = .error fault ↔
      d.firstUnknown? tokens = some fault := foldlM_addToken_eq_error_iff
  unfold Program.parse
  rw [bind_eq_error_iff, ← added]
  constructor
  · rintro (h | ⟨draft, -, h⟩)
    · exact h
    · cases h
  · exact Or.inl

/-- What assembling a text without a refused word comes to, for the program that it means. -/
structure Assembles (d : Dialect) (memorySize : Nat) (source : String) (p : Program) : Prop where
  parsed : Program.parse d (Token.scan source) = .ok p
  tooLarge : Image.ofSource d memorySize source =
      .error { cause := .programTooLarge p.imageLength memorySize } ↔ memorySize < p.imageLength
  fault : p.imageLength ≤ memorySize → ∀ fault, Image.ofSource d memorySize source = .error fault ↔
    p.FirstOffence d.wordSize fault
  accepted : (∃ image, Image.ofSource d memorySize source = .ok image) ↔
    p.imageLength ≤ memorySize ∧ p.Resolvable d.wordSize
  image : ∀ image, Image.ofSource d memorySize source = .ok image → p.IsImage image.words

theorem ofSource_eq_error_of_unknown {memorySize : Nat} {source : String} {fault : Fault}
    (h : d.firstUnknown? (Token.scan source) = some fault) :
    Image.ofSource d memorySize source = .error fault := by
  unfold Image.ofSource
  rw [parse_eq_error_iff.mpr h]
  rfl

theorem ofSource_eq_of_parse (memorySize : Nat) {source : String} {p : Program}
    (h : Program.parse d (Token.scan source) = .ok p) :
    Image.ofSource d memorySize source =
      if memorySize < p.imageLength then
        .error { cause := .programTooLarge p.imageLength memorySize }
      else ((Layout.ofProgram p).resolve p d.wordSize).map
        fun words => { words, annotations := (Layout.ofProgram p).annotations } := by
  have hlength : (Layout.ofProgram p).imageLength = p.imageLength := rfl
  unfold Image.ofSource
  rw [h]
  by_cases hlarge : memorySize < p.imageLength
  · rw [if_pos hlarge]
    simp only [bind, Except.bind, hlength, hlarge, if_true]
    rfl
  · rw [if_neg hlarge]
    simp only [bind, Except.bind, hlength, hlarge, if_false]
    cases (Layout.ofProgram p).resolve p d.wordSize <;> rfl

theorem exists_program_of_ofSource {memorySize : Nat} {source : String} {image : Image}
    (h : Image.ofSource d memorySize source = .ok image) :
    ∃ p, Program.parse d (Token.scan source) = .ok p ∧ p.imageLength ≤ memorySize ∧
      (Layout.ofProgram p).resolve p d.wordSize = .ok image.words := by
  cases hparse : Program.parse d (Token.scan source) with
  | error fault =>
    unfold Image.ofSource at h
    rw [hparse] at h
    cases h
  | ok p =>
    rw [ofSource_eq_of_parse memorySize hparse] at h
    by_cases hlarge : memorySize < p.imageLength
    · rw [if_pos hlarge] at h
      cases h
    · rw [if_neg hlarge] at h
      refine ⟨p, rfl, by omega, ?_⟩
      cases hresolve : (Layout.ofProgram p).resolve p d.wordSize with
      | error fault =>
        rw [hresolve] at h
        cases h
      | ok words =>
        rw [hresolve] at h
        cases h
        rfl

/-- Beyond the address space a larger word size resolves no more references. -/
theorem resolve_min (l : Layout) (p : Program) (wordSize : Nat) :
    l.resolve p (min wordSize addressSpace) = l.resolve p wordSize := by
  have bound : ∀ address, (address < min wordSize addressSpace ∧ address ≤ maxWord) ↔
      (address < wordSize ∧ address ≤ maxWord) := by
    intro address
    unfold maxWord addressSpace
    omega
  have words : l.resolveWord (min wordSize addressSpace) = l.resolveWord wordSize := by
    funext word
    unfold Layout.resolveWord
    simp only [bound]
  unfold Layout.resolve
  rw [words]

theorem isImage_of_ofSource {memorySize : Nat} {source : String} {image : Image} {p : Program}
    (himage : Image.ofSource d memorySize source = .ok image)
    (hparse : Program.parse d (Token.scan source) = .ok p) :
    p.IsImage image.words ∧ p.imageLength ≤ memorySize ∧
      image.annotations = (Layout.ofProgram p).annotations := by
  have outcome := ofSource_eq_of_parse memorySize hparse
  rw [himage] at outcome
  by_cases hlarge : memorySize < p.imageLength
  · rw [if_pos hlarge] at outcome
    cases outcome
  · rw [if_neg hlarge, ← resolve_min] at outcome
    cases hresolve : (Layout.ofProgram p).resolve p (min d.wordSize addressSpace) with
    | error fault =>
      rw [hresolve] at outcome
      cases outcome
    | ok words =>
      rw [hresolve] at outcome
      cases outcome
      exact ⟨Layout.isImage_of_resolve (Nat.min_le_right _ _) hresolve, Nat.le_of_not_lt hlarge,
        rfl⟩

theorem programTooLarge_not_firstOffence {p : Program} {wordSize length size : Nat} :
    ¬p.FirstOffence wordSize { cause := .programTooLarge length size } := by
  rintro ⟨before, word, after, -, -, -, hposition⟩
  cases hposition

theorem assembles_of_parse (hw : d.wordSize ≤ addressSpace) {memorySize : Nat} {source : String}
    {p : Program} (h : Program.parse d (Token.scan source) = .ok p) :
    Assembles d memorySize source p := by
  have outcome : Image.ofSource d memorySize source = _ := ofSource_eq_of_parse memorySize h
  by_cases hlarge : memorySize < p.imageLength
  · rw [if_pos hlarge] at outcome
    have noImage : ∀ image, Image.ofSource d memorySize source ≠ .ok image := by
      intro image himage
      rw [outcome] at himage
      cases himage
    refine ⟨h, ⟨fun _ => hlarge, fun _ => outcome⟩, fun hle => ?_, ?_, ?_⟩
    · omega
    · constructor
      · rintro ⟨image, himage⟩
        exact absurd himage (noImage image)
      · rintro ⟨hle, -⟩
        omega
    · intro image himage
      exact absurd himage (noImage image)
  · rw [if_neg hlarge] at outcome
    have hle : p.imageLength ≤ memorySize := by omega
    have refused : ∀ fault, Image.ofSource d memorySize source = .error fault ↔
        p.FirstOffence d.wordSize fault := by
      intro fault
      rw [outcome, ← Layout.resolve_eq_error_iff hw]
      cases (Layout.ofProgram p).resolve p d.wordSize <;> simp [Except.map]
    have resolved : ∀ image, Image.ofSource d memorySize source = .ok image →
        (Layout.ofProgram p).resolve p d.wordSize = .ok image.words := by
      intro image himage
      have ⟨p', hparse, _, hresolve⟩ := exists_program_of_ofSource himage
      have hsame : p = p' := Except.ok.inj (h.symm.trans hparse)
      exact hsame ▸ hresolve
    refine ⟨h, ?_, fun _ => refused, ?_, ?_⟩
    · rw [refused]
      simp only [programTooLarge_not_firstOffence, hlarge]
    · rw [← Layout.resolve_isOk hw]
      constructor
      · rintro ⟨image, himage⟩
        exact ⟨hle, image.words, resolved image himage⟩
      · rintro ⟨-, words, hwords⟩
        rw [outcome, hwords]
        exact ⟨_, rfl⟩
    · intro image himage
      exact Layout.isImage_of_resolve hw (resolved image himage)

/-- Addresses are those that the declarations give, references are resolved to them or the first one
that cannot be is reported, and a text that is refused is refused for its first unknown word, else
for its size, else for such a reference. -/
theorem resolution_exact {wordSize : Nat} (hw : wordSize ≤ addressSpace) :
    (∀ (p : Program) (symbol : Symbol),
      (Layout.ofProgram p).address? symbol = p.declaredAddress? symbol) ∧
    (∀ p : Program,
      (Layout.ofProgram p).imageLength = 1 + p.code.length + Program.dataLength p.data ∧
      ((∃ words, (Layout.ofProgram p).resolve p wordSize = .ok words) ↔ p.Resolvable wordSize) ∧
      (∀ words, (Layout.ofProgram p).resolve p wordSize = .ok words → p.IsImage words) ∧
      ∀ fault, (Layout.ofProgram p).resolve p wordSize = .error fault ↔
        p.FirstOffence wordSize fault) ∧
    ∀ (d : Dialect) (memorySize : Nat) (source : String), d.wordSize = wordSize →
      match d.firstUnknown? (Token.scan source) with
      | some fault => Image.ofSource d memorySize source = .error fault
      | none => ∃ p, Assembles d memorySize source p := by
  refine ⟨Layout.address?_ofProgram, fun p => ?_, ?_⟩
  · exact ⟨p.imageLength_eq, Layout.resolve_isOk hw, fun words => Layout.isImage_of_resolve hw,
      fun fault => Layout.resolve_eq_error_iff hw⟩
  · rintro d memorySize source rfl
    cases hunknown : d.firstUnknown? (Token.scan source) with
    | some fault => exact ofSource_eq_error_of_unknown hunknown
    | none =>
      cases hparse : Program.parse d (Token.scan source) with
      | ok p => exact ⟨p, assembles_of_parse hw hparse⟩
      | error fault =>
        rw [parse_eq_error_iff, hunknown] at hparse
        cases hparse

def redeclaring : Program where
  code := [⟨.word 7, some (.user "a"), ⟨1, 5⟩⟩, ⟨.reference (.user "a"), some (.user "a"), ⟨1, 11⟩⟩,
    ⟨.reference (.buffer "b"), none, ⟨2, 1⟩⟩]
  data := [⟨.buffer "b", [0, 0], ⟨2, 1⟩⟩, ⟨.buffer "b", [5], ⟨2, 7⟩⟩]

theorem resolution_exact_redeclaring :
    ∃ words, (Layout.ofProgram redeclaring).resolve redeclaring 256 = .ok words ∧
      redeclaring.IsImage words := by
  have hw : 256 ≤ addressSpace := by decide
  have ⟨_, resolved, _⟩ := resolution_exact hw
  have ⟨_, accepted, image, _⟩ := resolved redeclaring
  have resolvable : redeclaring.Resolvable 256 := Program.resolvable_iff.mpr (by decide)
  have ⟨words, hwords⟩ := accepted.mpr resolvable
  exact ⟨words, hwords, image words hwords⟩

end BusMachine.Assembly
