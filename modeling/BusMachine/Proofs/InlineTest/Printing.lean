import BusMachine.Proofs.InlineTest.Reading
import BusMachine.Proofs.Text.Lines

/-!
Printed assertions. What a block was read as is printed one assertion a line, and reading that gives
the block again: a printed part has no pair of characters in it that the text lacked which it was
read from, so that the comparison which divided the line divides the printed line as well.
-/

namespace BusMachine.InlineTest

variable {cs : List Char}

/-- Everything that could mislead a reader of the printed text was in the text that it was read
from: the second half of a comparison behind the same character, a semicolon or a line feed. -/
structure Keeps (cs printed : List Char) : Prop where
  avoids : ∀ a ∈ ['=', '!'], Avoids a '=' cs → Avoids a '=' printed
  lacks : ∀ c ∈ [';', '\n'], c ∉ cs → c ∉ printed

namespace Keeps

theorem refl (cs : List Char) : Keeps cs cs := ⟨fun _ _ h => h, fun _ _ h => h⟩

theorem of_plain {printed : List Char} (h : ∀ c ∈ ['=', ';', '\n'], c ∉ printed) :
    Keeps cs printed := by
  have ⟨equals, semicolon, newline⟩ : '=' ∉ printed ∧ ';' ∉ printed ∧ '\n' ∉ printed := by
    simpa using h
  refine ⟨fun a _ _ => avoids_of_not_mem equals, fun c hc _ => ?_⟩
  obtain rfl | rfl : c = ';' ∨ c = '\n' := by simpa using hc
  · exact semicolon
  · exact newline

theorem of_part {whole printed : List Char} (h : Keeps cs printed) (hpart : cs <:+: whole) :
    Keeps whole printed where
  avoids a ha havoids := h.avoids a ha (havoids.of_part hpart)
  lacks c hc hlacks := h.lacks c hc fun hmem => hlacks (hpart.subset hmem)

theorem brackets {printed : List Char} (h : Keeps cs printed) :
    Keeps cs ('[' :: printed ++ [']']) where
  avoids a ha havoids := by
    have front : Avoids a '=' (['['] ++ printed) := by
      refine avoids_append.mpr ⟨.singleton _, h.avoids a ha havoids, ?_⟩
      rintro ⟨⟩
      exact absurd ha (by decide)
    exact avoids_append.mpr ⟨front, .singleton _, fun _ => by decide⟩
  lacks c hc hlacks := by
    have apart : ∀ c ∈ [';', '\n'], c ≠ '[' ∧ c ≠ ']' := List.all_iff_forall_prop.mp (by decide)
    simp [apart c hc, h.lacks c hc hlacks]

end Keeps

theorem Comparison.Clear.of_keeps {comparison : Comparison}
    {subject value printed printed' : List Char} (clear : comparison.Clear subject value)
    (hsubject : Keeps subject printed) (hvalue : Keeps value printed') :
    comparison.Clear printed printed' := by
  cases comparison with
  | equal => exact hsubject.avoids '=' (by decide) clear
  | notEqual =>
    obtain ⟨equal, notEqual, behind⟩ := clear
    exact ⟨hsubject.avoids '=' (by decide) equal, hsubject.avoids '!' (by decide) notEqual,
      hvalue.avoids '=' (by decide) behind⟩

structure WrittenValue.Prints (v : WrittenValue) (cs : List Char) : Prop where
  parse : WrittenValue.parse v.text.toList = .ok v
  trimmed : Text.Trimmed v.text.toList
  keeps : Keeps cs v.text.toList

theorem WrittenValue.prints_literal {z : Int} (h : z.natAbs ≤ Text.maxMagnitude) (cs : List Char) :
    (WrittenValue.literal z).Prints cs := by
  have numeral : (WrittenValue.literal z).text.toList = (Text.Numeral.ofInt z).text :=
    (Text.Numeral.text_ofInt z).symm
  have wellFormed := Text.Numeral.wellFormed_ofInt z
  have foreign : ∀ c ∈ ['=', ';', '\n'], Text.Numeral.Foreign c :=
    List.all_iff_forall_prop.mp (by decide)
  refine ⟨WrittenValue.parse_eq_ok_iff.mpr (.inl ⟨z, Text.integer?_toString h, rfl⟩), ?_, ?_⟩
  · rw [numeral]
    exact .of_forall wellFormed.not_isWhitespace
  · rw [numeral]
    exact .of_plain fun c hc => wellFormed.not_mem_text (foreign c hc)

theorem toNat_le_maxMagnitude (c : Char) : c.toNat ≤ Text.maxMagnitude := by
  have small : c.toNat < UInt32.size := c.val.toNat_lt
  exact Nat.le_of_lt (Nat.lt_trans small (by decide))

theorem WrittenValue.prints_of_parse {v : WrittenValue} (h : WrittenValue.parse cs = .ok v)
    (trimmed : Text.Trimmed cs) : v.Prints cs := by
  obtain ⟨z, hz, rfl⟩ | ⟨c, hc, rfl⟩ | ⟨hlabel, rfl⟩ := WrittenValue.parse_eq_ok_iff.mp h
  · obtain ⟨n, -, -, rfl⟩ := Text.Numeral.integer?_eq_some_iff.mp hz
    exact prints_literal n.natAbs_reading_le cs
  · exact prints_literal (z := c.toNat) (toNat_le_maxMagnitude c) cs
  · have same : (WrittenValue.label (String.ofList cs)).text.toList = cs := String.toList_ofList
    refine ⟨?_, ?_, ?_⟩ <;> rw [same]
    · exact h
    · exact trimmed
    · exact .refl cs

theorem Subject.toList_text_memory (v : WrittenValue) :
    (Subject.memory v).text.toList = '[' :: v.text.toList ++ [']'] := by
  show ("[" ++ v.text ++ "]").toList = _
  rw [String.toList_append, String.toList_append]
  rfl

structure Subject.Prints (s : Subject) (cs : List Char) : Prop where
  parse : Subject.parse s.text.toList = .ok s
  ne_nil : s.text.toList ≠ []
  keeps : Keeps cs s.text.toList

theorem Subject.prints_of_parse {s : Subject} (h : Subject.parse cs = .ok s) (hne : cs ≠ []) :
    s.Prints cs := by
  obtain ⟨hname, rfl⟩ | ⟨inner, v, rfl, hv, rfl⟩ := Subject.parse_eq_ok_iff.mp h
  · have same : (Subject.component (String.ofList cs)).text.toList = cs := String.toList_ofList
    refine ⟨?_, ?_, ?_⟩ <;> rw [same]
    · exact h
    · exact hne
    · exact .refl cs
  · have value := WrittenValue.prints_of_parse hv (Text.trimmed_trim inner)
    have part : Text.trim inner <:+: '[' :: inner ++ [']'] :=
      (Text.trim_isInfix inner).trans ⟨['['], [']'], rfl⟩
    refine ⟨?_, ?_, ?_⟩ <;> rw [Subject.toList_text_memory]
    · refine Subject.parse_eq_ok_iff.mpr (.inr ⟨_, v, rfl, ?_, rfl⟩)
      rw [value.trimmed.trim_eq]
      exact value.parse
    · exact List.cons_ne_nil _ _
    · exact value.keeps.brackets.of_part part

theorem Assertion.toList_text (a : Assertion) : a.text.toList =
    a.subject.text.toList ++ [' '] ++ a.comparison.text.toList ++
      ([' '] ++ a.expected.text.toList) := by
  show (a.subject.text ++ " " ++ a.comparison.text ++ " " ++ a.expected.text).toList = _
  simp only [String.toList_append, List.append_assoc]
  rfl

structure Assertion.Prints (a : Assertion) : Prop where
  parse : Assertion.parse a.text.toList = .ok a
  trimmed : Text.Trimmed a.text.toList
  ne_nil : a.text.toList ≠ []
  semicolon : ';' ∉ a.text.toList
  newline : '\n' ∉ a.text.toList

theorem Assertion.prints_of_parse {a : Assertion} (h : Assertion.parse cs = .ok a)
    (hsemicolon : ';' ∉ cs) (hnewline : '\n' ∉ cs) : a.Prints := by
  obtain ⟨left, right, rfl, divides, hleft, hright, hsubject, hvalue⟩ :=
    Assertion.parse_eq_ok_iff.mp h
  have subject := Subject.prints_of_parse hsubject hleft
  have value := WrittenValue.prints_of_parse hvalue (Text.trimmed_trim right)
  have subjectKeeps := subject.keeps.of_part (Text.trim_isInfix left)
  have valueKeeps := value.keeps.of_part (Text.trim_isInfix right)
  have blank : ∀ c ∈ [' '], Text.isWhitespace c = true := List.all_eq_true.mp (by decide)
  have clear := (Comparison.clear_of_divides divides).of_keeps subjectKeeps valueKeeps
  have ⟨trimmed, parsed⟩ := Assertion.parse_spaced subject.parse value.parse subject.ne_nil
    value.trimmed clear blank blank
  have lacks : ∀ c ∈ [';', '\n'], c ∉ left ++ a.comparison.text.toList ++ right →
      c ∉ a.text.toList := by
    intro c hc hline
    have ne : ∀ c ∈ [';', '\n'], c ≠ ' ' := List.all_iff_forall_prop.mp (by decide)
    rw [List.mem_append, List.mem_append, not_or, not_or] at hline
    obtain ⟨⟨hleft, hsign⟩, hright⟩ := hline
    rw [Assertion.toList_text]
    simp [subjectKeeps.lacks c hc hleft, valueKeeps.lacks c hc hright, hsign, ne c hc]
  rw [← Assertion.toList_text] at trimmed parsed
  refine ⟨parsed, trimmed, ?_, lacks ';' (by decide) hsemicolon, lacks '\n' (by decide) hnewline⟩
  rw [Assertion.toList_text]
  simp [subject.ne_nil]

def Block.text (b : Block) : String := Literate.unlines (b.assertions.map (·.text.toList))

theorem not_mem_of_mem_statements {text line : List Char} (h : line ∈ statements text) :
    ';' ∉ line ∧ '\n' ∉ line := by
  obtain ⟨source, hsource, rfl⟩ := List.mem_map.mp (List.mem_of_mem_filter h)
  have part : stripComment source ⊆ source.takeWhile (· != ';') := (Text.trim_isInfix _).subset
  refine ⟨fun hmem => ?_, fun hmem => ?_⟩
  · have front := List.all_eq_true.mp List.all_takeWhile ';' (part hmem)
    exact absurd front (by decide)
  · exact Text.newline_not_mem_lines text source hsource
      ((List.takeWhile_prefix _).subset (part hmem))

theorem statements_text {b : Block} (h : ∀ a ∈ b.assertions, a.Prints) :
    statements b.text.toList = b.assertions.map (·.text.toList) := by
  have blank : Text.isWhitespace '\r' = true := by decide
  have lines : Text.lines b.text.toList = b.assertions.map (·.text.toList) := by
    refine Literate.lines_unlines (List.forall_mem_map.mpr fun a ha => (h a ha).newline)
      (List.forall_mem_map.mpr fun a ha hlast => ?_)
    rw [(h a ha).trimmed.last '\r' hlast] at blank
    cases blank
  have bare : (b.assertions.map (·.text.toList)).map stripComment =
      b.assertions.map (·.text.toList) := by
    rw [List.map_map]
    exact List.map_congr_left fun a ha =>
      (stripComment_of_not_mem (h a ha).semicolon).trans (h a ha).trimmed.trim_eq
  unfold statements
  rw [lines, bare, List.filter_eq_self]
  refine List.forall_mem_map.mpr fun a ha => ?_
  simpa using (h a ha).ne_nil

/-- What a block was read as can be printed and read again: the printed block is read, with the same
first and last line, as the same assertions in the same order. -/
theorem Block.parse_text {t : TestSection} {b : Block} (h : Block.parse t = .ok b) :
    Block.parse { t with content := b.text } = .ok b := by
  obtain ⟨parsed, hstart, hend⟩ := Block.parse_eq_ok_iff.mp h
  have prints : ∀ a ∈ b.assertions, a.Prints := by
    intro a ha
    obtain ⟨line, hline, hparse⟩ := exists_mem_left parsed ha
    obtain ⟨semicolon, newline⟩ := not_mem_of_mem_statements hline
    exact Assertion.prints_of_parse hparse semicolon newline
  refine Block.parse_eq_ok_iff.mpr ⟨?_, hstart, hend⟩
  rw [statements_text prints, List.forall₂_map_left_iff, List.forall₂_same]
  exact fun a ha => (prints a ha).parse

theorem Block.parse_text_unusual :
    let b : Block := {
      assertions := [⟨.memory (.label ":a!=b"), .equal, .label "$x == [y"⟩,
        ⟨.component "pc", .notEqual, .literal (-9223372036854775807)⟩,
        ⟨.memory (.literal 16), .notEqual, .literal 233⟩]
      startLine := 3, endLine := 7 }
    let content := "\t[ :a!=b ]== $x == [y ; odd\n\npc!=-99999999999999999999\n[0x10] != 'é'\n"
    Block.parse { content, startLine := 3, endLine := 7 } = .ok b ∧
    Block.parse { content := b.text, startLine := 3, endLine := 7 } = .ok b := by
  intro b content
  have parsed : Block.parse { content, startLine := 3, endLine := 7 } = .ok b := by decide
  exact ⟨parsed, Block.parse_text parsed⟩

end BusMachine.InlineTest
