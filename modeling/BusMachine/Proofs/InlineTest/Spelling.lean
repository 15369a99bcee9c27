import BusMachine.Proofs.InlineTest.Reading

/-!
How assertions are written. Every kind of value can be written on either side of a comparison, with
any white space around the parts and a comment behind them, and is read as what it stands for. A
semicolon begins a comment wherever it stands, and the comparison is searched for in the whole line,
so a part must not hide either of them.
-/

namespace BusMachine.InlineTest

/-- The texts that a value is written as. -/
inductive WrittenValue.Spells : List Char → WrittenValue → Prop
  | integer {n : Text.Numeral} (h : n.WellFormed) (hsign : n.sign ≠ .plus) :
      Spells n.text (.literal n.reading)
  | quoted {c : Char} (h : Text.isWhitespace c = false) : Spells ['\'', c] (.literal c.toNat)
  | enclosed {c : Char} (h : Text.isWhitespace c = false) :
      Spells ['\'', c, '\''] (.literal c.toNat)
  | code {name : List Char} (h : ∀ c ∈ name, Text.isWhitespace c = false) :
      Spells (':' :: name) (.label (String.ofList (':' :: name)))
  | buffer {name : List Char} (h : ∀ c ∈ name, Text.isWhitespace c = false) :
      Spells ('$' :: name) (.label (String.ofList ('$' :: name)))
  | string {digits : List Char} (hne : digits ≠ []) (h : ∀ c ∈ digits, Text.isDigit c = true) :
      Spells ('s' :: digits) (.label (String.ofList ('s' :: digits)))

inductive Subject.Spells : List Char → Subject → Prop
  | component {name : List Char} (hne : name ≠ []) (h : ∀ c ∈ name, c.isAlphanum ∨ c = '_') :
      Spells name (.component (String.ofList name))
  | memory {before address behind : List Char} {v : WrittenValue}
      (hbefore : ∀ c ∈ before, Text.isWhitespace c = true) (h : v.Spells address)
      (hbehind : ∀ c ∈ behind, Text.isWhitespace c = true) :
      Spells ('[' :: (before ++ address ++ behind) ++ [']']) (.memory v)

namespace WrittenValue.Spells

variable {cs : List Char} {v : WrittenValue}

theorem not_isWhitespace (h : v.Spells cs) : ∀ c ∈ cs, Text.isWhitespace c = false := by
  have quote : Text.isWhitespace '\'' = false := by decide
  cases h with
  | integer h hsign => exact h.not_isWhitespace
  | quoted h => simp [quote, h]
  | enclosed h => simp [quote, h]
  | code h => exact List.forall_mem_cons.mpr ⟨by decide, h⟩
  | buffer h => exact List.forall_mem_cons.mpr ⟨by decide, h⟩
  | string hne h =>
    refine List.forall_mem_cons.mpr ⟨by decide, fun c hc => ?_⟩
    exact Text.not_isWhitespace_of_isDigit (h c hc)

theorem parse_eq_ok (h : v.Spells cs) : WrittenValue.parse cs = .ok v := by
  refine WrittenValue.parse_eq_ok_iff.mpr ?_
  cases h with
  | integer h hsign =>
    exact .inl ⟨_, Text.Numeral.integer?_eq_some_iff.mpr ⟨_, h.heads, hsign, rfl⟩, rfl⟩
  | quoted h => exact .inr (.inl ⟨_, rfl, rfl⟩)
  | enclosed h => exact .inr (.inl ⟨_, rfl, rfl⟩)
  | code h => exact .inr (.inr ⟨rfl, rfl⟩)
  | buffer h => exact .inr (.inr ⟨rfl, rfl⟩)
  | @string digits hne h =>
    refine .inr (.inr ⟨?_, rfl⟩)
    show (!digits.isEmpty && digits.all Text.isDigit) = true
    simp [hne, List.all_eq_true.mpr h]

end WrittenValue.Spells

namespace Subject.Spells

variable {cs : List Char} {s : Subject}

theorem ne_nil (h : s.Spells cs) : cs ≠ [] := by
  cases h with
  | component hne h => exact hne
  | memory hbefore h hbehind => exact List.cons_ne_nil _ _

theorem parse_eq_ok (h : s.Spells cs) : Subject.parse cs = .ok s := by
  refine Subject.parse_eq_ok_iff.mpr ?_
  cases h with
  | component hne h =>
    refine .inl ⟨List.all_eq_true.mpr fun c hc => ?_, rfl⟩
    simpa using h c hc
  | memory hbefore h hbehind =>
    refine .inr ⟨_, _, rfl, ?_, rfl⟩
    rw [Text.trim_append hbefore hbehind, (Text.Trimmed.of_forall h.not_isWhitespace).trim_eq]
    exact h.parse_eq_ok

end Subject.Spells

/-- What stands around the parts of a line: white space, and perhaps a comment. -/
structure Spacing where
  indent : List Char
  before : List Char
  behind : List Char
  trailing : List Char
  comment : Option (List Char)
  indent_blank : ∀ c ∈ indent, Text.isWhitespace c = true
  before_blank : ∀ c ∈ before, Text.isWhitespace c = true
  behind_blank : ∀ c ∈ behind, Text.isWhitespace c = true
  trailing_blank : ∀ c ∈ trailing, Text.isWhitespace c = true

namespace Spacing

variable (g : Spacing) {subject value : List Char}

def remark : List Char :=
  match g.comment with
  | none => []
  | some text => ';' :: text

def statement (subject : List Char) (comparison : Comparison) (value : List Char) : List Char :=
  subject ++ g.before ++ comparison.text.toList ++ (g.behind ++ value)

def line (subject : List Char) (comparison : Comparison) (value : List Char) : List Char :=
  g.indent ++ g.statement subject comparison value ++ g.trailing ++ g.remark

theorem stripComment_remark {cs : List Char} (h : ';' ∉ cs) :
    stripComment (cs ++ g.remark) = Text.trim cs := by
  unfold remark
  cases g.comment with
  | none => rw [List.append_nil, stripComment_of_not_mem h]
  | some text => rw [stripComment_append, stripComment_of_not_mem h]

theorem not_mem_statement (comparison : Comparison) (hsubject : ';' ∉ subject)
    (hvalue : ';' ∉ value) : ';' ∉ g.statement subject comparison value := by
  have before := Text.not_mem_of_blank (a := ';') g.before_blank (by decide)
  have behind := Text.not_mem_of_blank (a := ';') g.behind_blank (by decide)
  have sign : ';' ∉ comparison.text.toList := by cases comparison <;> decide
  simp [statement, hsubject, before, sign, behind, hvalue]

theorem stripComment_line (comparison : Comparison) (hsubject : ';' ∉ subject)
    (hvalue : ';' ∉ value) : stripComment (g.line subject comparison value) =
      Text.trim (g.statement subject comparison value) := by
  have indent := Text.not_mem_of_blank (a := ';') g.indent_blank (by decide)
  have trailing := Text.not_mem_of_blank (a := ';') g.trailing_blank (by decide)
  have statement := g.not_mem_statement comparison hsubject hvalue
  unfold line
  rw [stripComment_remark g (by simp [indent, statement, trailing]),
    Text.trim_append g.indent_blank g.trailing_blank]

end Spacing

theorem Assertion.parse_line {a : Assertion} {subject value : List Char} (g : Spacing)
    (hsubject : a.subject.Spells subject) (hvalue : a.expected.Spells value)
    (hsemicolon : ';' ∉ subject) (hsemicolon' : ';' ∉ value)
    (clear : a.comparison.Clear subject value) :
    let text := stripComment (g.line subject a.comparison value)
    text ≠ [] ∧ Assertion.parse text = .ok a := by
  have ⟨trimmed, parsed⟩ := Assertion.parse_spaced hsubject.parse_eq_ok hvalue.parse_eq_ok
    hsubject.ne_nil (.of_forall hvalue.not_isWhitespace) clear g.before_blank g.behind_blank
  have text : stripComment (g.line subject a.comparison value) =
      g.statement subject a.comparison value := by
    rw [g.stripComment_line _ hsemicolon hsemicolon']
    exact trimmed.trim_eq
  rw [text]
  refine ⟨?_, parsed⟩
  simp [Spacing.statement, hsubject.ne_nil]

/-- What is written is read. Take a component or a cell that is addressed by an integer, a character
or a label, a comparison and another such value, written on one line with any white space around the
three parts and inside the brackets, and with or without a comment. If no part has a semicolon in
it, the parts of an equality hide no equality in front of it, and those of an inequality hide no
equality at all and no inequality in front of it, then the line is read as that one assertion. A
semicolon begins a comment wherever it stands: what follows it on a line makes no difference to any
block. -/
theorem spellings_read :
    (∀ (t : TestSection) (g : Spacing) (a : Assertion) (subject value : List Char),
      a.subject.Spells subject → a.expected.Spells value → ';' ∉ subject → ';' ∉ value →
      a.comparison.Clear subject value →
      Text.lines t.content.toList = [g.line subject a.comparison value] →
      Block.parse t =
        .ok { assertions := [a], startLine := t.startLine, endLine := t.endLine }) ∧
    ∀ (t t' : TestSection) (above below : List (List Char)) (line comment : List Char),
      t.startLine = t'.startLine → t.endLine = t'.endLine →
      Text.lines t.content.toList = above ++ (line ++ ';' :: comment) :: below →
      Text.lines t'.content.toList = above ++ line :: below →
      Block.parse t = Block.parse t' := by
  refine ⟨fun t g a subject value hsubject hvalue hsemicolon hsemicolon' clear hline => ?_,
    fun t t' above below line comment hstart hend ht ht' => ?_⟩
  · obtain ⟨hne, parsed⟩ := Assertion.parse_line g hsubject hvalue hsemicolon hsemicolon' clear
    have statement : statements t.content.toList =
        [stripComment (g.line subject a.comparison value)] := by
      unfold statements
      rw [hline]
      simp [hne]
    refine Block.parse_eq_ok_iff.mpr ⟨?_, rfl, rfl⟩
    rw [statement]
    exact .cons parsed .nil
  · have same : (Text.lines t.content.toList).map stripComment =
        (Text.lines t'.content.toList).map stripComment := by
      rw [ht, ht', List.map_append, List.map_append, List.map_cons, List.map_cons,
        stripComment_append]
    unfold Block.parse
    rw [parseLines_congr same, hstart, hend]

theorem spellings_read_close :
    Block.parse { content := "\t[ -0x1f ]!='= ; a!\n", startLine := 4, endLine := 6 } =
      .ok { assertions := [⟨.memory (.literal (-31)), .notEqual, .literal 61⟩],
            startLine := 4, endLine := 6 } ∧
    Block.parse { content := "a == :x;y", startLine := 4, endLine := 6 } =
      Block.parse { content := "a == :x", startLine := 4, endLine := 6 } := by
  let n : Text.Numeral := ⟨.minus, .lower, ['1', 'f']⟩
  have address : (WrittenValue.literal (-31)).Spells "-0x1f".toList :=
    .integer (n := n) ⟨by decide, List.all_iff_forall_prop.mp (by decide)⟩ (by decide)
  have subject : (Subject.memory (.literal (-31))).Spells "[ -0x1f ]".toList :=
    .memory (v := .literal (-31)) (List.forall_mem_singleton.mpr (by decide)) address
      (List.forall_mem_singleton.mpr (by decide))
  have value : (WrittenValue.literal 61).Spells "'=".toList := .quoted (c := '=') (by decide)
  let g : Spacing := {
    indent := ['\t'], before := [], behind := [], trailing := [' '], comment := some " a!".toList
    indent_blank := List.all_eq_true.mp (by decide)
    before_blank := List.all_eq_true.mp (by decide)
    behind_blank := List.all_eq_true.mp (by decide)
    trailing_blank := List.all_eq_true.mp (by decide) }
  constructor
  · exact spellings_read.1 _ g ⟨_, .notEqual, _⟩ _ _ subject value (by decide) (by decide)
      (by decide) (by decide)
  · exact spellings_read.2 _ _ [] [] "a == :x".toList ['y'] rfl rfl (by decide) (by decide)

theorem parts_mistaken :
    ((Subject.component "a").Spells "a".toList ∧ (WrittenValue.literal 59).Spells "';".toList ∧
      Block.parse { content := "a == ';", startLine := 1, endLine := 2 } =
        .error { line := 1, text := "a == '", cause := .invalidValue "'" }) ∧
    ((WrittenValue.label ":x==y").Spells ":x==y".toList ∧
      Block.parse { content := "a != :x==y", startLine := 1, endLine := 2 } =
        .error { line := 1, text := "a != :x==y", cause := .invalidName "a != :x" }) ∧
    ((Subject.memory (.label ":x==y")).Spells "[:x==y]".toList ∧
      Block.parse { content := "[:x==y] == 1", startLine := 1, endLine := 2 } =
        .error { line := 1, text := "[:x==y] == 1", cause := .unclosedAddress }) ∧
    (Subject.memory (.label ":x!=y")).Spells "[:x!=y]".toList ∧
      Block.parse { content := "[:x!=y] != 1", startLine := 1, endLine := 2 } =
        .error { line := 1, text := "[:x!=y] != 1", cause := .unclosedAddress } := by
  have code : ∀ name : List Char, (∀ c ∈ name, Text.isWhitespace c = false) →
      (Subject.memory (.label (String.ofList (':' :: name)))).Spells
        ('[' :: ([] ++ ':' :: name ++ []) ++ [']']) :=
    fun name h => .memory (by simp) (.code h) (by simp)
  have equality : ∀ c ∈ "x==y".toList, Text.isWhitespace c = false :=
    List.all_iff_forall_prop.mp (by decide)
  have inequality : ∀ c ∈ "x!=y".toList, Text.isWhitespace c = false :=
    List.all_iff_forall_prop.mp (by decide)
  refine ⟨⟨.component (by decide) (List.all_iff_forall_prop.mp (by decide)), .quoted (by decide),
    by decide⟩, ⟨.code equality, by decide⟩, ⟨code "x==y".toList equality, by decide⟩,
    code "x!=y".toList inequality, by decide⟩

end BusMachine.InlineTest
