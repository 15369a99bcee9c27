import BusMachine.Proofs.Assembly.Source

/-!
Strict and lenient parsing. They agree on strings and on words with a meaning. A word without one
makes no difference to lenient parsing, as if it were not in the text, and strict parsing refuses
the first such word.
-/

namespace BusMachine.Assembly

def Dialect.withStrict (d : Dialect) (strict : Bool) : Dialect := { d with strict }

def Token.known (d : Dialect) (t : Token) : Bool :=
  match t.lexeme with
  | .word text => d.recognises text
  | .string _ _ => true

/-- The fault of the first word without a meaning. -/
def Dialect.FirstUnknown (d : Dialect) (tokens : List Token) (fault : Fault) : Prop :=
  ∃ before t word after, tokens = before ++ t :: after ∧
    (∀ earlier ∈ before, earlier.known d = true) ∧
    t.lexeme = .word word ∧ d.recognises word = false ∧
    fault = { cause := .unknownToken word, position := some t.position }

variable {d : Dialect} {t : Token} {tokens : List Token} {draft : Draft}

theorem unknown?_eq_none_iff : t.unknown? d = none ↔ t.known d = true := by
  unfold Token.unknown? Token.known
  cases t.lexeme with
  | string codes terminated => simp
  | word text => cases h : d.recognises text <;> simp [h]

theorem firstUnknown?_eq_some_iff {fault : Fault} :
    (d.withStrict true).firstUnknown? tokens = some fault ↔ d.FirstUnknown tokens fault := by
  have own : ∀ t : Token, t.unknown? (d.withStrict true) = t.unknown? d := fun _ => rfl
  have strict : (d.withStrict true).firstUnknown? tokens =
      tokens.findSome? (Token.unknown? d) := rfl
  rw [strict, List.findSome?_eq_some_iff]
  constructor
  · rintro ⟨before, t, after, hsplit, hunknown, hbefore⟩
    obtain ⟨word, hlexeme, hword, hfault⟩ := unknown?_eq_some_iff.mp hunknown
    exact ⟨before, t, word, after, hsplit, fun u hu => unknown?_eq_none_iff.mp (hbefore u hu),
      hlexeme, hword, hfault⟩
  · rintro ⟨before, t, word, after, hsplit, hbefore, hlexeme, hword, hfault⟩
    exact ⟨before, t, after, hsplit, unknown?_eq_some_iff.mpr ⟨word, hlexeme, hword, hfault⟩,
      fun u hu => unknown?_eq_none_iff.mpr (hbefore u hu)⟩

theorem addToken_withStrict (h : t.known d = true) (strict strict' : Bool) :
    draft.addToken (d.withStrict strict) t = draft.addToken (d.withStrict strict') t := by
  unfold Token.known at h
  unfold Draft.addToken
  cases hlexeme : t.lexeme with
  | string codes terminated => rfl
  | word text =>
    rw [hlexeme] at h
    have meaning : ∀ strict, Meaning.ofWord (d.withStrict strict) text = Meaning.ofWord d text :=
      fun _ => rfl
    unfold Draft.addWord
    dsimp only
    rw [meaning, meaning]
    cases hmeaning : Meaning.ofWord d text with
    | unknown =>
      have unknown : d.recognises text = false := ofWord_eq_unknown_iff.mp hmeaning
      have known : d.recognises text = true := h
      rw [unknown] at known
      cases known
    | _ => rfl

theorem addToken_of_unknown (h : t.known d = false) :
    draft.addToken (d.withStrict false) t = .ok draft := by
  unfold Token.known at h
  unfold Draft.addToken
  cases hlexeme : t.lexeme with
  | string codes terminated =>
    rw [hlexeme] at h
    cases h
  | word text =>
    rw [hlexeme] at h
    have meaning : Meaning.ofWord (d.withStrict false) text = .unknown :=
      ofWord_eq_unknown_iff.mpr h
    unfold Draft.addWord
    dsimp only
    rw [meaning]
    rfl

theorem foldlM_filter_known :
    (tokens.filter (Token.known d)).foldlM (Draft.addToken (d.withStrict false)) draft =
      tokens.foldlM (Draft.addToken (d.withStrict false)) draft := by
  induction tokens generalizing draft with
  | nil => rfl
  | cons t tokens ih =>
    rw [List.filter_cons]
    cases hknown : t.known d with
    | true =>
      rw [if_pos rfl, List.foldlM_cons, List.foldlM_cons]
      exact congrArg _ (funext fun _ => ih)
    | false =>
      rw [if_neg Bool.false_ne_true, List.foldlM_cons, addToken_of_unknown hknown, ih]
      rfl

theorem foldlM_withStrict (h : ∀ t ∈ tokens, t.known d = true) (strict strict' : Bool) :
    tokens.foldlM (Draft.addToken (d.withStrict strict)) draft =
      tokens.foldlM (Draft.addToken (d.withStrict strict')) draft := by
  induction tokens generalizing draft with
  | nil => rfl
  | cons t tokens ih =>
    have ⟨ht, htokens⟩ := List.forall_mem_cons.mp h
    rw [List.foldlM_cons, List.foldlM_cons, addToken_withStrict ht strict strict']
    exact congrArg _ (funext fun _ => ih htokens)

theorem parse_filter_known :
    Program.parse (d.withStrict false) (tokens.filter (Token.known d)) =
      Program.parse (d.withStrict false) tokens := by
  unfold Program.parse
  rw [foldlM_filter_known]

theorem parse_withStrict (h : ∀ t ∈ tokens, t.known d = true) (strict strict' : Bool) :
    Program.parse (d.withStrict strict) tokens = Program.parse (d.withStrict strict') tokens := by
  unfold Program.parse
  rw [foldlM_withStrict h strict strict']

theorem exists_parse_lenient (d : Dialect) (tokens : List Token) :
    ∃ p, Program.parse (d.withStrict false) tokens = .ok p := by
  cases hparse : Program.parse (d.withStrict false) tokens with
  | ok p => exact ⟨p, rfl⟩
  | error fault =>
    have refused := parse_eq_error_iff.mp hparse
    cases refused

theorem exists_parse_strict_eq_error_iff :
    (∃ fault, Program.parse (d.withStrict true) tokens = .error fault) ↔
      ∃ t ∈ tokens, t.known d = false := by
  constructor
  · rintro ⟨fault, hfault⟩
    obtain ⟨before, t, word, after, rfl, -, hlexeme, hword, -⟩ :=
      firstUnknown?_eq_some_iff.mp (parse_eq_error_iff.mp hfault)
    refine ⟨t, by simp, ?_⟩
    unfold Token.known
    rw [hlexeme]
    exact hword
  · rintro ⟨t, ht, hunknown⟩
    cases hfirst : (d.withStrict true).firstUnknown? tokens with
    | some fault => exact ⟨fault, parse_eq_error_iff.mpr hfirst⟩
    | none =>
      have none : tokens.findSome? (Token.unknown? d) = none := hfirst
      have known := unknown?_eq_none_iff.mp (List.findSome?_eq_none_iff.mp none t ht)
      rw [hunknown] at known
      cases known

theorem known_of_parse_strict {p : Program}
    (h : Program.parse (d.withStrict true) tokens = .ok p) : ∀ t ∈ tokens, t.known d = true := by
  intro t ht
  by_contra hunknown
  obtain ⟨fault, hfault⟩ :=
    exists_parse_strict_eq_error_iff.mpr ⟨t, ht, eq_false_of_ne_true hunknown⟩
  rw [h] at hfault
  cases hfault

theorem ofSource_lenient_of_strict {memorySize : Nat} {source : String} {image : Image}
    (h : Image.ofSource (d.withStrict true) memorySize source = .ok image) :
    Image.ofSource (d.withStrict false) memorySize source = .ok image := by
  obtain ⟨p, hstrict, -, -⟩ := exists_program_of_ofSource h
  have hlenient := hstrict
  rw [parse_withStrict (known_of_parse_strict hstrict) true false] at hlenient
  rw [ofSource_eq_of_parse memorySize hstrict] at h
  rw [ofSource_eq_of_parse memorySize hlenient]
  exact h

/-- Lenient parsing never fails and gives the program of the known tokens. Strict parsing refuses
the first unknown word, if there is one, and gives the same program otherwise. So what is assembled
strictly is assembled leniently into the same image with the same annotations. -/
theorem strictness_exact (d : Dialect) (tokens : List Token) :
    (∃ p, Program.parse (d.withStrict false) tokens = .ok p ∧
      Program.parse (d.withStrict false) (tokens.filter (Token.known d)) = .ok p ∧
      ((∀ t ∈ tokens, t.known d = true) → Program.parse (d.withStrict true) tokens = .ok p)) ∧
    ((∃ fault, Program.parse (d.withStrict true) tokens = .error fault) ↔
      ∃ t ∈ tokens, t.known d = false) ∧
    (∀ fault, Program.parse (d.withStrict true) tokens = .error fault ↔
      d.FirstUnknown tokens fault) ∧
    ∀ memorySize source image, Image.ofSource (d.withStrict true) memorySize source = .ok image →
      Image.ofSource (d.withStrict false) memorySize source = .ok image := by
  obtain ⟨p, hp⟩ := exists_parse_lenient d tokens
  refine ⟨⟨p, hp, parse_filter_known.trans hp, fun h => ?_⟩, exists_parse_strict_eq_error_iff,
    fun fault => ?_, fun memorySize source image => ofSource_lenient_of_strict⟩
  · exact (parse_withStrict h true false).trans hp
  · rw [parse_eq_error_iff, firstUnknown?_eq_some_iff]

def plainDialect : Dialect := { instructions := .empty, wordSize := 256 }

def returning : Program where
  code := [⟨.word 7, some (.user "go"), ⟨1, 6⟩⟩, ⟨.reference (.user "go"), none, ⟨1, 8⟩⟩]

theorem strictness_exact_returning :
    Program.parse (plainDialect.withStrict true) (Token.scan "::go ? 7 :go") =
        .error { cause := .unknownToken "?", position := some ⟨1, 6⟩ } ∧
      Program.parse (plainDialect.withStrict true) (Token.scan "::go 7 :go") = .ok returning ∧
      ∃ image, Image.ofSource (plainDialect.withStrict true) 256 "::go 7 :go" = .ok image ∧
        Image.ofSource (plainDialect.withStrict false) 256 "::go 7 :go" = .ok image := by
  have unknown : plainDialect.FirstUnknown (Token.scan "::go ? 7 :go")
      { cause := .unknownToken "?", position := some ⟨1, 6⟩ } :=
    ⟨[⟨.word "::go", ⟨1, 1⟩⟩], ⟨.word "?", ⟨1, 6⟩⟩, "?",
      [⟨.word "7", ⟨1, 8⟩⟩, ⟨.word ":go", ⟨1, 10⟩⟩], by decide, by decide, rfl, by decide, rfl⟩
  have known : ∀ t ∈ Token.scan "::go 7 :go", t.known plainDialect = true := by decide
  have ⟨_, _, refused, _⟩ := strictness_exact plainDialect (Token.scan "::go ? 7 :go")
  have ⟨⟨p, lenient, _, strict⟩, _, _, same⟩ :=
    strictness_exact plainDialect (Token.scan "::go 7 :go")
  have parsed : Program.parse (plainDialect.withStrict false) (Token.scan "::go 7 :go") =
      .ok returning := eq_ok_of_toOption (by decide)
  obtain rfl : p = returning := Except.ok.inj (lenient.symm.trans parsed)
  have assembled : Assembles _ 256 _ returning := assembles_of_parse (by decide) (strict known)
  have resolvable : returning.Resolvable 256 := Program.resolvable_iff.mpr (by decide)
  have ⟨image, himage⟩ := assembled.accepted.mpr ⟨by decide, resolvable⟩
  exact ⟨(refused _).mpr unknown, strict known, image, himage, same 256 _ image himage⟩

end BusMachine.Assembly
