import BusMachine.Assembly.Token
import Mathlib.Data.List.Basic

/-!
Where the tokens of a text stand. The position of a token is that of its first character, and the
text from there on begins with the token: a word up to the next blank, or a string with its quotes.
Later tokens have later positions.
-/

namespace BusMachine.Assembly

namespace Position

/-- The position behind a text: its line feeds are counted, and the characters after the last
one. -/
def behind (text : List Char) : Position :=
  ⟨text.count '\n' + 1, (text.reverse.takeWhile (· != '\n')).length + 1⟩

instance : LT Position := ⟨fun p q => p.line < q.line ∨ p.line = q.line ∧ p.column < q.column⟩

theorem lt_iff {p q : Position} : p < q ↔ p.line < q.line ∨ p.line = q.line ∧ p.column < q.column :=
  Iff.rfl

theorem lt_trans {p q r : Position} (hpq : p < q) (hqr : q < r) : p < r := by
  rw [lt_iff] at *
  omega

theorem lt_after (p : Position) (c : Char) : p < p.after c := by
  rw [lt_iff, after]
  split <;> simp

@[simp] theorem behind_nil : behind [] = start := rfl

theorem behind_concat (text : List Char) (c : Char) :
    behind (text ++ [c]) = (behind text).after c := by
  by_cases h : c = '\n' <;> simp [behind, after, h, List.count_append]

theorem behind_lt_append (text : List Char) (c : Char) (more : List Char) :
    behind text < behind (text ++ c :: more) := by
  induction more generalizing text c with
  | nil => simpa only [behind_concat] using lt_after _ c
  | cons d more ih =>
    have first : behind text < behind (text ++ [c]) := by
      simpa only [behind_concat] using lt_after _ c
    have rest := ih (text ++ [c]) d
    simp only [List.append_assoc, List.singleton_append] at rest
    exact lt_trans first rest

theorem behind_lt_concat (before current : List Char) (c : Char) :
    behind before < behind (before ++ current ++ [c]) := by
  cases current <;> simpa using behind_lt_append before _ _

end Position

/-- The characters between the quotes of a string, with the codes that they spell. -/
inductive Spells : List Char → List Nat → Prop
  | nil : Spells [] []
  | plain {text : List Char} {codes : List Nat} {c : Char} (h : Spells text codes)
      (hquote : c ≠ '"') (hescape : c ≠ '\\') : Spells (text ++ [c]) (codes ++ [c.toNat])
  | escape {text : List Char} {codes : List Nat} (h : Spells text codes) (high low : Char) :
      Spells (text ++ ['\\', high, low])
        (codes ++ [Scanner.escapeDigit high * 16 + Scanner.escapeDigit low])

/-- The characters of a string that is never closed; its last escape may lack digits. -/
inductive SpellsOpen : List Char → List Nat → Prop
  | whole {text : List Char} {codes : List Nat} (h : Spells text codes) : SpellsOpen text codes
  | noDigit {text : List Char} {codes : List Nat} (h : Spells text codes) :
      SpellsOpen (text ++ ['\\']) (codes ++ [0])
  | oneDigit {text : List Char} {codes : List Nat} (h : Spells text codes) (high : Char) :
      SpellsOpen (text ++ ['\\', high]) (codes ++ [Scanner.escapeDigit high * 16])

def startsWord (c : Char) : Bool := !isBlank c && c != '/' && c != '"'

/-- A text begins with a lexeme. A word goes up to the next blank or the end of the text. -/
def Lexeme.Heads (text : List Char) : Lexeme → Prop
  | .word run =>
    run.toList = text.takeWhile (!isBlank ·) ∧ ∃ c ∈ text.head?, startsWord c = true
  | .string codes true => ∃ body rest, text = '"' :: (body ++ '"' :: rest) ∧ Spells body codes
  | .string codes false => ∃ body, text = '"' :: body ∧ SpellsOpen body codes

/-- A token is found in a text where its position says. -/
def Token.StandsIn (text : List Char) (t : Token) : Prop :=
  ∃ before rest, text = before ++ rest ∧ t.position = .behind before ∧ t.lexeme.Heads rest

inductive Mode.Spans (start : Position) : Mode → List Char → Prop
  | gap : Spans start .gap []
  | comment (text : List Char) : Spans start .comment text
  | word {text : List Char} (hfirst : ∃ c ∈ text.getLast?, startsWord c = true)
      (hblank : ∀ c ∈ text, isBlank c = false) : Spans start (.word start text) text.reverse
  | string {body : List Char} {codes : List Nat} (h : Spells body codes.reverse) :
      Spans start (.string start codes) ('"' :: body)
  | escape {body : List Char} {codes : List Nat} (h : Spells body codes.reverse) :
      Spans start (.escape start codes) ('"' :: (body ++ ['\\']))
  | escapeLow {body : List Char} {codes : List Nat} (h : Spells body codes.reverse) (high : Char) :
      Spans start (.escapeLow start codes (Scanner.escapeDigit high))
        ('"' :: (body ++ ['\\', high]))

/-- A scanner that has read a text. -/
structure Scanner.HasRead (text : List Char) (s : Scanner) : Prop where
  position : s.position = .behind text
  tokens : ∀ t ∈ s.tokens, ∀ more, t.StandsIn (text ++ more)
  ordered : s.tokens.toList.Pairwise (·.position < ·.position)
  mode : ∃ before current, text = before ++ current ∧ s.mode.Spans (.behind before) current ∧
    ∀ t ∈ s.tokens, t.position < .behind before

namespace Scanner

variable {text before : List Char} {s : Scanner} {c : Char}

theorem hasRead_nil : HasRead [] {} where
  position := rfl
  tokens := by simp
  ordered := by simp
  mode := ⟨[], [], rfl, .gap, by simp⟩

theorem HasRead.stay (h : s.HasRead text) {mode : Mode} {before current : List Char}
    (htext : text ++ [c] = before ++ current) (hmode : mode.Spans (.behind before) current)
    (hbefore : ∀ t ∈ s.tokens, t.position < .behind before) :
    HasRead (text ++ [c]) { s with position := s.position.after c, mode } where
  position := by simp only [h.position, Position.behind_concat]
  tokens t ht more := by simpa using h.tokens t ht (c :: more)
  ordered := h.ordered
  mode := ⟨before, current, htext, hmode, hbefore⟩

theorem HasRead.skip (h : s.HasRead text) (c : Char) :
    HasRead (text ++ [c]) { s with position := s.position.after c, mode := .gap } := by
  obtain ⟨before, current, rfl, -, hbefore⟩ := h.mode
  exact h.stay (List.append_nil _).symm .gap fun t ht =>
    Position.lt_trans (hbefore t ht) (Position.behind_lt_concat _ _ c)

theorem HasRead.push (h : s.HasRead text) {lexeme : Lexeme} {current : List Char}
    (htext : text = before ++ current) (hbefore : ∀ t ∈ s.tokens, t.position < .behind before)
    (hlexeme : ∀ more, lexeme.Heads (current ++ c :: more)) :
    HasRead (text ++ [c])
      { position := s.position.after c, mode := .gap,
        tokens := s.tokens.push ⟨lexeme, .behind before⟩ } := by
  have here : Position.behind before < .behind (text ++ [c]) :=
    htext ▸ Position.behind_lt_concat _ _ c
  refine ⟨(h.skip c).position, fun t ht more => ?_, ?_, text ++ [c], [], by simp, .gap,
    fun t ht => ?_⟩
  · obtain hold | rfl := Array.mem_push.mp ht
    · simpa using h.tokens t hold (c :: more)
    · exact ⟨before, current ++ c :: more, by simp [htext], rfl, hlexeme more⟩
  · rw [Array.toList_push, List.pairwise_append]
    exact ⟨h.ordered, by simp, by simpa using hbefore⟩
  · obtain hold | rfl := Array.mem_push.mp ht
    · exact Position.lt_trans (hbefore t hold) here
    · exact here

theorem heads_word {run : List Char} (hfirst : ∃ c ∈ run.getLast?, startsWord c = true)
    (hblank : ∀ c ∈ run, isBlank c = false) {rest : List Char}
    (hrest : ∀ c ∈ rest.head?, isBlank c = true) :
    (Lexeme.word (String.ofList run.reverse)).Heads (run.reverse ++ rest) := by
  obtain ⟨c, hc, hstart⟩ := hfirst
  refine ⟨?_, c, ?_, hstart⟩
  · have ends : rest.takeWhile (!isBlank ·) = [] := by
      cases rest with
      | nil => rfl
      | cons d rest => simp [hrest d (by simp)]
    rw [String.toList_ofList, List.takeWhile_append_of_pos (by simpa using hblank), ends,
      List.append_nil]
  · simpa [List.head?_append] using Or.inl hc

theorem HasRead.enter (h : s.HasRead text) (hlater : ∀ t ∈ s.tokens, t.position < .behind text)
    (c : Char) :
    HasRead (text ++ [c])
      { s with position := s.position.after c, mode := opening s.position c } := by
  rw [h.position]
  unfold opening
  split
  · simpa only [h.position] using h.skip c
  · rename_i hblank
    split
    · simpa only [h.position] using h.stay rfl (.comment [c]) hlater
    · rename_i hcomment
      split
      · rename_i hquote
        subst hquote
        have empty : Spells [] [].reverse := .nil
        simpa only [h.position] using h.stay rfl (.string empty) hlater
      · rename_i hquote
        have first : ∃ d ∈ [c].getLast?, startsWord d = true :=
          ⟨c, rfl, by simp [startsWord, hblank, hcomment, hquote]⟩
        simpa only [h.position] using h.stay rfl (.word first (by simpa using hblank)) hlater

theorem HasRead.step (h : s.HasRead text) (c : Char) : HasRead (text ++ [c]) (s.step c) := by
  obtain ⟨before, current, htext, hmode, hbefore⟩ := h.mode
  unfold Scanner.step
  generalize hs : s.mode = mode at hmode
  cases hmode with
  | gap =>
    rw [List.append_nil] at htext
    simpa only [hs] using h.enter (htext ▸ hbefore) c
  | comment =>
    dsimp only
    split
    · exact h.skip c
    · exact h.stay (by rw [htext, List.append_assoc]) (.comment _) hbefore
  | @word run hfirst hblank =>
    dsimp only
    split
    · rename_i hc
      exact h.push htext hbefore fun more => heads_word hfirst hblank (by simpa using hc)
    · rename_i hc
      have first : ∃ d ∈ (c :: run).getLast?, startsWord d = true := by
        obtain ⟨d, hd, hstart⟩ := hfirst
        exact ⟨d, by simp [List.getLast?_cons, Option.mem_def.mp hd], hstart⟩
      have blank : ∀ d ∈ c :: run, isBlank d = false := by
        simpa only [List.forall_mem_cons] using ⟨eq_false_of_ne_true hc, hblank⟩
      exact h.stay (by simp [htext]) (.word first blank) hbefore
  | @string body codes hbody =>
    dsimp only
    split
    · rename_i hquote
      subst hquote
      refine h.push htext hbefore fun more => ⟨body, more, ?_, hbody⟩
      rfl
    · rename_i hquote
      split
      · rename_i hescape
        subst hescape
        exact h.stay (by simp [htext]) (.escape hbody) hbefore
      · rename_i hescape
        have longer : Spells (body ++ [c]) (c.toNat :: codes).reverse := by
          simpa using hbody.plain hquote hescape
        exact h.stay (by simp [htext]) (.string longer) hbefore
  | escape hbody =>
    exact h.stay (by simp [htext]) (.escapeLow hbody c) hbefore
  | @escapeLow body codes hbody high =>
    have longer : Spells (body ++ ['\\', high, c])
        ((escapeDigit high * 16 + escapeDigit c) :: codes).reverse := by
      simpa using hbody.escape high c
    exact h.stay (by simp [htext]) (.string longer) hbefore

theorem HasRead.foldl (h : s.HasRead text) (more : List Char) :
    HasRead (text ++ more) (more.foldl Scanner.step s) := by
  induction more generalizing text s with
  | nil => simpa using h
  | cons c more ih => simpa using ih (h.step c)

theorem HasRead.finish (h : s.HasRead text) :
    (∀ t ∈ s.finish, t.StandsIn text) ∧
      s.finish.toList.Pairwise (·.position < ·.position) := by
  obtain ⟨before, current, htext, hmode, hbefore⟩ := h.mode
  have kept : ∀ t ∈ s.tokens, t.StandsIn text := fun t ht => by simpa using h.tokens t ht []
  have last : ∀ lexeme : Lexeme, lexeme.Heads current →
      (∀ t ∈ s.tokens.push ⟨lexeme, .behind before⟩, t.StandsIn text) ∧
        (s.tokens.push ⟨lexeme, .behind before⟩).toList.Pairwise (·.position < ·.position) := by
    intro lexeme hlexeme
    refine ⟨fun t ht => ?_, ?_⟩
    · obtain hold | rfl := Array.mem_push.mp ht
      · exact kept t hold
      · exact ⟨before, current, htext, rfl, hlexeme⟩
    · rw [Array.toList_push, List.pairwise_append]
      exact ⟨h.ordered, by simp, by simpa using hbefore⟩
  unfold Scanner.finish
  generalize hs : s.mode = mode at hmode
  cases hmode with
  | gap => exact ⟨kept, h.ordered⟩
  | comment => exact ⟨kept, h.ordered⟩
  | word hfirst hblank =>
    have ended : ∀ c ∈ ([] : List Char).head?, isBlank c = true := by simp
    exact last _ (by simpa using heads_word hfirst hblank ended)
  | string hbody => exact last _ ⟨_, rfl, .whole hbody⟩
  | escape hbody => exact last _ ⟨_, rfl, by simpa using SpellsOpen.noDigit hbody⟩
  | escapeLow hbody high => exact last _ ⟨_, rfl, by simpa using SpellsOpen.oneDigit hbody high⟩

end Scanner

theorem standsIn_scan (source : String) :
    (∀ t ∈ Token.scan source, t.StandsIn source.toList) ∧
      (Token.scan source).Pairwise (·.position < ·.position) := by
  simpa [Token.scan] using (Scanner.hasRead_nil.foldl source.toList).finish

end BusMachine.Assembly
