import BusMachine.Proofs.Assembly.Positions
import Mathlib.Data.List.Infix
import Mathlib.Data.List.TakeWhile

/-!
Written tokens. Words are written as they are and strings between quotes, with blanks and closed
comments around them. Reading such a text gives back the tokens that were written, where they were
written; and whatever a text is, the words read from it are of the kind that can be written, and a
string that lacks its closing quote comes last.
-/

namespace BusMachine.Assembly

/-- A text that can stand between tokens: blanks and closed comments. -/
inductive Filler : List Char → Prop
  | nil : Filler []
  | blank {c : Char} {rest : List Char} (hblank : isBlank c = true) (hrest : Filler rest) :
      Filler (c :: rest)
  | comment {body rest : List Char} (hbody : '/' ∉ body) (hrest : Filler rest) :
      Filler ('/' :: (body ++ '/' :: rest))

/-- The ways to write a code inside of a string: as its character, or as a backslash with two
hexadecimal digits in either case, which only codes below 256 have. -/
inductive WritesCode : Nat → List Char → Prop
  | plain {c : Char} (hquote : c ≠ '"') (hescape : c ≠ '\\') : WritesCode c.toNat [c]
  | escape {code : Nat} {high low : Char} (hhigh : Text.hexDigit? high = some (code / 16))
      (hlow : Text.hexDigit? low = some (code % 16)) : WritesCode code ['\\', high, low]

structure IsWord (text : String) : Prop where
  nonempty : text ≠ ""
  noBlank : ∀ c ∈ text.toList, isBlank c = false
  noComment : text.toList.head? ≠ some '/'
  noQuote : text.toList.head? ≠ some '"'

namespace Lexeme

/-- The ways to write a lexeme. -/
inductive Writes : Lexeme → List Char → Prop
  | word {text : String} (h : IsWord text) : Writes (.word text) text.toList
  | string {codes : List Nat} {parts : List (List Char)} (h : List.Forall₂ WritesCode codes parts) :
      Writes (.string codes true) ('"' :: (parts.flatten ++ ['"']))

/-- What can follow a lexeme: behind a word there is a blank or the end of the text. -/
def Separated : Lexeme → List Char → Prop
  | .word _, rest => ∀ c ∈ rest.head?, isBlank c = true
  | .string _ _, _ => True

/-- A lexeme that can be written: a word of the right form, or a string of codes of characters that
has both quotes. -/
def Writable : Lexeme → Prop
  | .word text => IsWord text
  | .string codes terminated => terminated = true ∧ ∀ code ∈ codes, code.isValidChar

def terminated : Lexeme → Bool
  | .word _ => true
  | .string _ terminated => terminated

end Lexeme

/-- A text in which tokens are written one after the other, given the text before it. -/
inductive Written : List Char → List Token → List Char → Prop
  | nil {before gap : List Char} (hgap : Filler gap) : Written before [] gap
  | cons {before gap text rest : List Char} {lexeme : Lexeme} {tokens : List Token}
      (hgap : Filler gap) (hlexeme : lexeme.Writes text) (hend : lexeme.Separated rest)
      (hrest : Written (before ++ gap ++ text) tokens rest) :
      Written before (⟨lexeme, .behind (before ++ gap)⟩ :: tokens) (gap ++ (text ++ rest))

namespace Scanner

variable {before gap text rest body run : List Char} {start : Position} {tokens : Array Token}

theorem step_gap (c : Char) :
    step ⟨.behind before, .gap, tokens⟩ c =
      ⟨.behind (before ++ [c]), opening (.behind before) c, tokens⟩ := by
  rw [Position.behind_concat]
  rfl

theorem foldl_comment (h : '/' ∉ body) :
    body.foldl step ⟨.behind before, .comment, tokens⟩ =
      ⟨.behind (before ++ body), .comment, tokens⟩ := by
  induction body generalizing before with
  | nil => rw [List.append_nil]; rfl
  | cons c body ih =>
    rw [List.mem_cons, not_or] at h
    obtain ⟨hc, hbody⟩ := h
    have inside : step ⟨.behind before, .comment, tokens⟩ c =
        ⟨.behind (before ++ [c]), .comment, tokens⟩ := by
      rw [Position.behind_concat]
      simp [step, Ne.symm hc]
    rw [List.foldl_cons, inside, ih hbody, List.append_assoc, List.singleton_append]

theorem foldl_filler (h : Filler gap) :
    gap.foldl step ⟨.behind before, .gap, tokens⟩ = ⟨.behind (before ++ gap), .gap, tokens⟩ := by
  induction h generalizing before with
  | nil => rw [List.append_nil]; rfl
  | @blank c rest hblank hrest ih =>
    have stays : opening (.behind before) c = .gap := if_pos hblank
    rw [List.foldl_cons, step_gap, stays, ih, List.append_assoc, List.singleton_append]
  | @comment body rest hbody hrest ih =>
    have opens : opening (.behind before) '/' = .comment := rfl
    have closes : step ⟨.behind (before ++ ['/'] ++ body), .comment, tokens⟩ '/' =
        ⟨.behind (before ++ ['/'] ++ body ++ ['/']), .gap, tokens⟩ := by
      rw [Position.behind_concat _ '/']
      rfl
    rw [List.foldl_cons, step_gap, opens, List.foldl_append, foldl_comment hbody, List.foldl_cons,
      closes, ih]
    simp

theorem foldl_run (h : ∀ c ∈ run, isBlank c = false) (read : List Char) :
    run.foldl step ⟨.behind before, .word start read, tokens⟩ =
      ⟨.behind (before ++ run), .word start (run.reverse ++ read), tokens⟩ := by
  induction run generalizing before read with
  | nil => rw [List.append_nil]; rfl
  | cons c run ih =>
    have ⟨hc, hrun⟩ := List.forall_mem_cons.mp h
    have inside : step ⟨.behind before, .word start read, tokens⟩ c =
        ⟨.behind (before ++ [c]), .word start (c :: read), tokens⟩ := by
      rw [Position.behind_concat]
      simp [step, hc]
    rw [List.foldl_cons, inside, ih hrun]
    simp

theorem foldl_word {word : String} (h : IsWord word) :
    word.toList.foldl step ⟨.behind before, .gap, tokens⟩ =
      ⟨.behind (before ++ word.toList), .word (.behind before) word.toList.reverse, tokens⟩ := by
  obtain ⟨nonempty, noBlank, noComment, noQuote⟩ := h
  cases hword : word.toList with
  | nil => exact absurd (String.toList_eq_nil_iff.mp hword) nonempty
  | cons c run =>
    rw [hword] at noBlank noComment noQuote
    have ⟨hc, hrun⟩ := List.forall_mem_cons.mp noBlank
    have opens : opening (.behind before) c = .word (.behind before) [c] := by
      simp only [List.head?_cons, ne_eq, Option.some.injEq] at noComment noQuote
      simp [opening, hc, noComment, noQuote]
    rw [List.foldl_cons, step_gap, opens, foldl_run hrun]
    simp

theorem finish_word (h : ∀ c ∈ rest.head?, isBlank c = true) (position : Position) :
    (rest.foldl step ⟨position, .word start run, tokens⟩).finish =
      (rest.foldl step ⟨position, .gap, tokens.push (wordToken start run)⟩).finish := by
  cases rest with
  | nil => rfl
  | cons c rest =>
    have hc : isBlank c = true := h c rfl
    have ends : step ⟨position, .word start run, tokens⟩ c =
        step ⟨position, .gap, tokens.push (wordToken start run)⟩ c := by
      simp [step, opening, hc]
    rw [List.foldl_cons, List.foldl_cons, ends]

theorem escapeDigit_of_hexDigit? {c : Char} {n : Nat} (h : Text.hexDigit? c = some n) :
    escapeDigit c = n := by
  rw [escapeDigit, h, Option.getD_some]

theorem foldl_code {code : Nat} {part : List Char} (h : WritesCode code part) (read : List Nat) :
    part.foldl step ⟨.behind before, .string start read, tokens⟩ =
      ⟨.behind (before ++ part), .string start (code :: read), tokens⟩ := by
  cases h with
  | plain hquote hescape =>
    rw [Position.behind_concat]
    simp [step, hquote, hescape]
  | @escape _ high low hhigh hlow =>
    have value : code / 16 * 16 + code % 16 = code := Nat.div_add_mod' code 16
    have split : before ++ ['\\', high, low] = before ++ ['\\'] ++ [high] ++ [low] := by simp
    rw [split]
    simp only [Position.behind_concat]
    simp [step, escapeDigit_of_hexDigit? hhigh, escapeDigit_of_hexDigit? hlow, value]

theorem foldl_codes {codes : List Nat} {parts : List (List Char)}
    (h : List.Forall₂ WritesCode codes parts) (read : List Nat) :
    parts.flatten.foldl step ⟨.behind before, .string start read, tokens⟩ =
      ⟨.behind (before ++ parts.flatten), .string start (codes.reverse ++ read), tokens⟩ := by
  induction h generalizing before read with
  | nil => rw [List.flatten_nil, List.append_nil]; rfl
  | cons hcode _ ih =>
    rw [List.flatten_cons, List.foldl_append, foldl_code hcode, ih]
    simp

theorem foldl_string {codes : List Nat} {parts : List (List Char)}
    (h : List.Forall₂ WritesCode codes parts) :
    ('"' :: (parts.flatten ++ ['"'])).foldl step ⟨.behind before, .gap, tokens⟩ =
      ⟨.behind (before ++ '"' :: (parts.flatten ++ ['"'])), .gap,
        tokens.push ⟨.string codes true, .behind before⟩⟩ := by
  have opens : opening (.behind before) '"' = .string (.behind before) [] := rfl
  have split : before ++ '"' :: (parts.flatten ++ ['"']) =
      before ++ ['"'] ++ parts.flatten ++ ['"'] := by simp
  rw [List.foldl_cons, step_gap, opens, List.foldl_append, foldl_codes h, split,
    Position.behind_concat _ '"', List.foldl_cons, List.foldl_nil]
  simp [step, stringToken]

theorem finish_lexeme {lexeme : Lexeme} (hlexeme : lexeme.Writes text)
    (hend : lexeme.Separated rest) :
    ((text ++ rest).foldl step ⟨.behind before, .gap, tokens⟩).finish =
      (rest.foldl step
        ⟨.behind (before ++ text), .gap, tokens.push ⟨lexeme, .behind before⟩⟩).finish := by
  cases hlexeme with
  | @word word h =>
    rw [List.foldl_append, foldl_word h, finish_word hend]
    simp [wordToken]
  | string h => rw [List.foldl_append, foldl_string h]

theorem finish_written {written : List Token} (h : Written before written rest)
    (tokens : Array Token) :
    (rest.foldl step ⟨.behind before, .gap, tokens⟩).finish.toList = tokens.toList ++ written := by
  induction h generalizing tokens with
  | nil hgap =>
    rw [foldl_filler hgap, List.append_nil]
    rfl
  | cons hgap hlexeme hend _ ih =>
    rw [List.foldl_append, foldl_filler hgap, finish_lexeme hlexeme hend, ih]
    simp

theorem terminated_step {s : Scanner} (h : ∀ t ∈ s.tokens, t.lexeme.terminated = true) (c : Char) :
    ∀ t ∈ (s.step c).tokens, t.lexeme.terminated = true := by
  have pushed : ∀ {new : Token}, new.lexeme.terminated = true →
      ∀ t ∈ s.tokens.push new, t.lexeme.terminated = true := by
    intro new hnew t ht
    obtain hold | rfl := Array.mem_push.mp ht
    · exact h t hold
    · exact hnew
  unfold step
  cases s.mode with
  | gap => exact h
  | comment => exact h
  | word start read =>
    dsimp only
    split
    · exact pushed rfl
    · exact h
  | string start read =>
    dsimp only
    split
    · exact pushed rfl
    · split
      · exact h
      · exact h
  | escape start read => exact h
  | escapeLow start read high => exact h

theorem terminated_foldl {s : Scanner} (h : ∀ t ∈ s.tokens, t.lexeme.terminated = true)
    (text : List Char) : ∀ t ∈ (text.foldl step s).tokens, t.lexeme.terminated = true := by
  induction text generalizing s with
  | nil => exact h
  | cons c text ih => exact ih (terminated_step h c)

theorem finish_cases (s : Scanner) : s.finish = s.tokens ∨ ∃ t, s.finish = s.tokens.push t := by
  unfold finish
  cases s.mode with
  | gap => exact .inl rfl
  | comment => exact .inl rfl
  | word start read => exact .inr ⟨_, rfl⟩
  | string start read => exact .inr ⟨_, rfl⟩
  | escape start read => exact .inr ⟨_, rfl⟩
  | escapeLow start read high => exact .inr ⟨_, rfl⟩

end Scanner

theorem terminated_of_mem_dropLast {source : String} :
    ∀ t ∈ (Token.scan source).dropLast, t.lexeme.terminated = true := by
  have all := Scanner.terminated_foldl (s := {}) (by simp) source.toList
  intro t ht
  unfold Token.scan at ht
  obtain hend | ⟨last, hend⟩ := Scanner.finish_cases (source.toList.foldl Scanner.step {})
  · rw [hend] at ht
    exact all t (Array.mem_toList_iff.mp (List.mem_of_mem_dropLast ht))
  · rw [hend, Array.toList_push, List.dropLast_concat] at ht
    exact all t (Array.mem_toList_iff.mp ht)

theorem isWord_of_scan {source : String} {t : Token} (ht : t ∈ Token.scan source) {word : String}
    (hword : t.lexeme = .word word) : IsWord word := by
  obtain ⟨before, rest, -, -, heads⟩ := (standsIn_scan source).1 t ht
  rw [hword] at heads
  obtain ⟨hrun, c, hc, hstart⟩ := heads
  simp only [startsWord, Bool.and_eq_true, Bool.not_eq_true', bne_iff_ne] at hstart
  have head : word.toList.head? = some c := by
    cases rest with
    | nil => cases hc
    | cons d rest =>
      cases hc
      rw [hrun, List.takeWhile_cons, if_pos (by simp [hstart.1.1])]
      rfl
  refine ⟨?_, fun d hd => ?_, ?_, ?_⟩
  · rintro rfl
    cases head
  · rw [hrun] at hd
    simpa using List.mem_takeWhile_imp hd
  · rw [head]
    simpa using hstart.1.2
  · rw [head]
    simpa using hstart.2

theorem exists_hexDigit {n : Nat} (h : n < 16) : ∃ c, Text.hexDigit? c = some n := by
  have digits : ∀ n < 16, Text.hexDigit? n.digitChar = some n := by decide
  exact ⟨n.digitChar, digits n h⟩

theorem exists_writesCode {code : Nat} (h : code.isValidChar) : ∃ part, WritesCode code part := by
  by_cases hsmall : code < 256
  · have ⟨high, hhigh⟩ := exists_hexDigit (show code / 16 < 16 by omega)
    have ⟨low, hlow⟩ := exists_hexDigit (show code % 16 < 16 by omega)
    exact ⟨_, .escape hhigh hlow⟩
  · have value : (Char.ofNat code).toNat = code := by
      rw [Char.ofNat, dif_pos h]
      rfl
    have large : ∀ c : Char, c.toNat < 256 → Char.ofNat code ≠ c := by
      rintro c hc rfl
      omega
    have plain := WritesCode.plain (large '"' (by decide)) (large '\\' (by decide))
    rw [value] at plain
    exact ⟨_, plain⟩

theorem Lexeme.Writable.exists_writes {lexeme : Lexeme} (h : lexeme.Writable) :
    ∃ text, lexeme.Writes text := by
  cases lexeme with
  | word text => exact ⟨_, .word h⟩
  | string codes terminated =>
    obtain ⟨rfl, hcodes⟩ := h
    have parts : ∃ parts, List.Forall₂ WritesCode codes parts := by
      induction codes with
      | nil => exact ⟨[], .nil⟩
      | cons code codes ih =>
        have ⟨hcode, hrest⟩ := List.forall_mem_cons.mp hcodes
        have ⟨part, hpart⟩ := exists_writesCode hcode
        have ⟨parts, hparts⟩ := ih hrest
        exact ⟨part :: parts, .cons hpart hparts⟩
    have ⟨_, hparts⟩ := parts
    exact ⟨_, .string hparts⟩

theorem exists_written {lexemes : List Lexeme} (h : ∀ lexeme ∈ lexemes, lexeme.Writable)
    (before : List Char) :
    ∃ tokens text, tokens.map Token.lexeme = lexemes ∧ Written before tokens text ∧
      ∀ c ∈ text.head?, isBlank c = true := by
  induction lexemes generalizing before with
  | nil => exact ⟨[], [], rfl, .nil .nil, by simp⟩
  | cons lexeme lexemes ih =>
    have ⟨hlexeme, hrest⟩ := List.forall_mem_cons.mp h
    have ⟨text, htext⟩ := hlexeme.exists_writes
    have ⟨tokens, rest, hmap, hwritten, hblank⟩ := ih hrest (before ++ [' '] ++ text)
    have separated : lexeme.Separated rest := by
      cases lexeme with
      | word _ => exact hblank
      | string _ _ => trivial
    refine ⟨_, _, ?_, .cons (.blank (c := ' ') rfl .nil) htext separated hwritten,
      by simp [isBlank]⟩
    rw [List.map_cons, hmap]

/-- Reading a written text gives back its tokens, and all words and closed strings can be written.
Whatever a text is, its words can be written, and only its last token can lack a closing quote. -/
theorem scan_written :
    (∀ tokens (source : String), Written [] tokens source.toList → Token.scan source = tokens) ∧
    (∀ lexemes : List Lexeme, (∀ lexeme ∈ lexemes, lexeme.Writable) →
      ∃ (tokens : List Token) (source : String),
        tokens.map Token.lexeme = lexemes ∧ Written [] tokens source.toList) ∧
    ∀ source, (∀ t ∈ Token.scan source, ∀ word, t.lexeme = .word word → IsWord word) ∧
      ∀ t ∈ (Token.scan source).dropLast, t.lexeme.terminated = true := by
  refine ⟨fun tokens source h => ?_, fun lexemes h => ?_, fun source => ⟨?_, ?_⟩⟩
  · exact (Scanner.finish_written h #[]).trans (List.nil_append _)
  · have ⟨tokens, text, hmap, hwritten, _⟩ := exists_written h []
    exact ⟨tokens, String.ofList text, hmap, by rwa [String.toList_ofList]⟩
  · exact fun t ht word hword => isWord_of_scan ht hword
  · exact terminated_of_mem_dropLast

theorem scan_written_touching :
    Token.scan "/a//b/\"x\\22\\5C\"lo\"a /c/hlt" =
      [⟨.string [120, 34, 92] true, ⟨1, 7⟩⟩, ⟨.word "lo\"a", ⟨1, 16⟩⟩, ⟨.word "hlt", ⟨1, 24⟩⟩] := by
  have x : WritesCode 120 ['x'] := .plain (c := 'x') (by decide) (by decide)
  have quote : WritesCode 34 ['\\', '2', '2'] := .escape (by decide) (by decide)
  have backslash : WritesCode 92 ['\\', '5', 'C'] := .escape (by decide) (by decide)
  have codes := List.Forall₂.cons x (.cons quote (.cons backslash .nil))
  have comments : Filler "/a//b/".toList :=
    @Filler.comment ['a'] _ (by decide) (@Filler.comment ['b'] _ (by decide) .nil)
  have gap : Filler " /c/".toList := .blank rfl (@Filler.comment ['c'] _ (by decide) .nil)
  have lo : IsWord "lo\"a" := ⟨by decide, by simp [isBlank], by decide, by decide⟩
  have hlt : IsWord "hlt" := ⟨by decide, by simp [isBlank], by decide, by decide⟩
  have blank : ∀ c ∈ (" /c/".toList ++ ("hlt".toList ++ [])).head?, isBlank c = true := by
    simp [isBlank]
  have ended : ∀ c ∈ ([] : List Char).head?, isBlank c = true := by simp
  exact scan_written.1 _ _ (.cons comments (.string codes) trivial
    (.cons .nil (.word lo) blank (.cons gap (.word hlt) ended (.nil .nil))))

end BusMachine.Assembly
