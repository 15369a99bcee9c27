import BusMachine.Proofs.Acceptance
import BusMachine.Proofs.InlineTest.Comparison
import BusMachine.Proofs.Text.Character
import BusMachine.Proofs.Text.Decimal

/-!
Which texts are values, subjects, assertions and blocks. The kinds of values exclude each other, as
do those of subjects; an assertion is a line divided into a subject and a value; and a block is read
exactly if each of its lines is an assertion, once it is rid of its comment, or empty.
-/

namespace BusMachine.InlineTest

variable {cs : List Char}

theorem head?_of_isLabel (h : isLabel cs = true) : ∃ c ∈ [':', '$', 's'], cs.head? = some c := by
  unfold isLabel at h
  split at h
  · exact ⟨':', by decide, rfl⟩
  · exact ⟨'$', by decide, rfl⟩
  · exact ⟨'s', by decide, rfl⟩
  · cases h

theorem head?_of_quotedChar? {c : Char} (h : Text.quotedChar? cs = some c) :
    cs.head? = some '\'' := by
  by_contra hne
  rw [Text.quotedChar?_eq_none hne] at h
  cases h

namespace WrittenValue

variable {v : WrittenValue}

theorem parse_eq_ok_iff : parse cs = .ok v ↔ (∃ z, Text.integer? cs = some z ∧ v = .literal z) ∨
    (∃ c, Text.quotedChar? cs = some c ∧ v = .literal c.toNat) ∨
    isLabel cs = true ∧ v = .label (String.ofList cs) := by
  unfold parse
  cases hinteger : Text.integer? cs with
  | some z =>
    have noChar : Text.quotedChar? cs = none :=
      Text.quotedChar?_eq_none fun hhead => by
        simp [Text.Numeral.integer?_eq_none (by decide) hhead] at hinteger
    have noLabel : isLabel cs = false := by
      by_contra hlabel
      obtain ⟨c, hc, hhead⟩ := head?_of_isLabel (Bool.eq_true_of_not_eq_false hlabel)
      have foreign : ∀ c ∈ [':', '$', 's'], Text.Numeral.Foreign c :=
        List.all_iff_forall_prop.mp (by decide)
      simp [Text.Numeral.integer?_eq_none (foreign c hc) hhead] at hinteger
    simp [noChar, noLabel, eq_comm]
  | none =>
    cases hchar : Text.quotedChar? cs with
    | some c =>
      have noLabel : isLabel cs = false := by
        by_contra hlabel
        obtain ⟨c, hc, hhead⟩ := head?_of_isLabel (Bool.eq_true_of_not_eq_false hlabel)
        rw [head?_of_quotedChar? hchar] at hhead
        obtain rfl := Option.some.inj hhead
        exact absurd hc (by decide)
      simp [noLabel, eq_comm]
    | none =>
      by_cases hlabel : isLabel cs = true <;> simp [hlabel, eq_comm]

end WrittenValue

namespace Subject

variable {s : Subject}

theorem parse_bracket (inner : List Char) : parse ('[' :: inner) =
    if inner.getLast? = some ']' then
      WrittenValue.parse (Text.trim inner.dropLast) >>= fun v => .ok (.memory v)
    else .error .unclosedAddress :=
  rfl

theorem parse_of_ne (h : ∀ inner, cs ≠ '[' :: inner) : parse cs =
    if isName cs then .ok (.component (String.ofList cs))
    else .error (.invalidName (String.ofList cs)) := by
  unfold parse
  split
  · rename_i inner
    exact absurd rfl (h inner)
  · rfl

theorem parse_eq_ok_iff : parse cs = .ok s ↔
    isName cs = true ∧ s = .component (String.ofList cs) ∨
    ∃ inner v, cs = '[' :: inner ++ [']'] ∧ WrittenValue.parse (Text.trim inner) = .ok v ∧
      s = .memory v := by
  by_cases hbracket : ∃ inner, cs = '[' :: inner
  · obtain ⟨inner, rfl⟩ := hbracket
    have noName : isName ('[' :: inner) = false := rfl
    rw [or_iff_right (by simp [noName]), parse_bracket]
    by_cases hclosed : inner.getLast? = some ']'
    · have whole : inner.dropLast ++ [']'] = inner := List.dropLast_append_getLast? _ hclosed
      rw [if_pos hclosed, bind_eq_ok_iff]
      constructor
      · rintro ⟨v, hv, ⟨⟩⟩
        exact ⟨inner.dropLast, v, by rw [List.cons_append, whole], hv, rfl⟩
      · rintro ⟨address, v, hinner, hv, rfl⟩
        obtain rfl : inner = address ++ [']'] := List.tail_eq_of_cons_eq hinner
        rw [List.dropLast_concat]
        exact ⟨v, hv, rfl⟩
    · rw [if_neg hclosed]
      refine iff_of_false (by simp) ?_
      rintro ⟨address, v, hinner, -, -⟩
      obtain rfl : inner = address ++ [']'] := List.tail_eq_of_cons_eq hinner
      exact hclosed List.getLast?_concat
  · have noMemory : ∀ inner v, ¬(cs = '[' :: inner ++ [']'] ∧
        WrittenValue.parse (Text.trim inner) = .ok v ∧ s = .memory v) :=
      fun inner v h => hbracket ⟨inner ++ [']'], h.1⟩
    simp only [noMemory, exists_false, or_false, parse_of_ne (not_exists.mp hbracket)]
    by_cases hname : isName cs = true <;> simp [hname, eq_comm]

end Subject

theorem of_isName (h : isName cs = true) : ∀ c ∈ cs, Text.isWhitespace c = false ∧
    c ∉ ['=', '!', ';'] := by
  intro c hc
  have hname := List.all_eq_true.mp h c hc
  induction c using Text.ascii_induction with
  | ascii n =>
    clear hc
    revert n
    decide
  | beyond c hbeyond =>
    rw [Text.isAlphanum_of_beyond hbeyond, Bool.false_or, beq_iff_eq] at hname
    rw [hname] at hbeyond
    exact absurd hbeyond (by decide)

theorem Subject.ends_of_parse {s : Subject} (h : Subject.parse cs = .ok s) :
    Text.Trimmed cs ∧ cs.getLast? ≠ some '=' := by
  obtain ⟨hname, -⟩ | ⟨inner, v, rfl, -, -⟩ := Subject.parse_eq_ok_iff.mp h
  · have plain := of_isName hname
    refine ⟨.of_forall fun c hc => (plain c hc).1, fun hlast => ?_⟩
    exact (plain '=' (List.mem_of_getLast? hlast)).2 (by decide)
  · rw [List.getLast?_concat]
    refine ⟨⟨?_, ?_⟩, by decide⟩
    · rintro c ⟨⟩
      rfl
    · rw [List.getLast?_concat]
      rintro c ⟨⟩
      rfl

theorem WrittenValue.front_of_parse {v : WrittenValue} (h : WrittenValue.parse cs = .ok v) :
    cs ≠ [] ∧ cs.head? ≠ some '=' := by
  obtain ⟨z, hz, -⟩ | ⟨c, hc, -⟩ | ⟨hlabel, -⟩ := WrittenValue.parse_eq_ok_iff.mp h
  · constructor
    · rintro rfl
      cases hz
    · intro hhead
      rw [Text.Numeral.integer?_eq_none (by decide) hhead] at hz
      cases hz
  · have hhead := head?_of_quotedChar? hc
    constructor
    · rintro rfl
      cases hhead
    · rw [hhead]
      decide
  · obtain ⟨c, hc, hhead⟩ := head?_of_isLabel hlabel
    constructor
    · rintro rfl
      cases hhead
    · rw [hhead]
      rintro ⟨⟩
      exact absurd hc (by decide)

theorem Assertion.parse_eq_ok_iff {a : Assertion} : Assertion.parse cs = .ok a ↔
    ∃ left right, cs = left ++ a.comparison.text.toList ++ right ∧ a.comparison.Divides left right ∧
      Text.trim left ≠ [] ∧ Text.trim right ≠ [] ∧ Subject.parse (Text.trim left) = .ok a.subject ∧
      WrittenValue.parse (Text.trim right) = .ok a.expected := by
  unfold Assertion.parse
  constructor
  · intro h
    obtain ⟨⟨subject, comparison, value⟩, hsplit, h⟩ := bind_eq_ok_iff.mp h
    obtain ⟨s, hs, h⟩ := bind_eq_ok_iff.mp h
    obtain ⟨v, hv, h⟩ := bind_eq_ok_iff.mp h
    cases h
    obtain ⟨left, right, hcs, divides, rfl, rfl, hleft, hright⟩ :=
      splitComparison_eq_ok_iff.mp hsplit
    exact ⟨left, right, hcs, divides, hleft, hright, hs, hv⟩
  · rintro ⟨left, right, hcs, divides, hleft, hright, hs, hv⟩
    rw [splitComparison_eq_ok_iff.mpr ⟨left, right, hcs, divides, rfl, rfl, hleft, hright⟩]
    show (do
      let subject ← Subject.parse (Text.trim left)
      let expected ← WrittenValue.parse (Text.trim right)
      return { subject, comparison := a.comparison, expected }) = Except.ok a
    rw [hs, hv]
    rfl

theorem Assertion.parse_spaced {a : Assertion} {subject before behind value : List Char}
    (hsubject : Subject.parse subject = .ok a.subject)
    (hvalue : WrittenValue.parse value = .ok a.expected) (hne : subject ≠ [])
    (trimmed : Text.Trimmed value) (clear : a.comparison.Clear subject value)
    (hbefore : ∀ c ∈ before, Text.isWhitespace c = true)
    (hbehind : ∀ c ∈ behind, Text.isWhitespace c = true) :
    let line := subject ++ before ++ a.comparison.text.toList ++ (behind ++ value)
    Text.Trimmed line ∧ Assertion.parse line = .ok a := by
  have ⟨hends, hlast⟩ := Subject.ends_of_parse hsubject
  have ⟨hvalueNe, hhead⟩ := WrittenValue.front_of_parse hvalue
  constructor
  · have whole := hends.append trimmed hne hvalueNe
      (before ++ (a.comparison.text.toList ++ behind))
    simpa only [List.append_assoc] using whole
  · refine Assertion.parse_eq_ok_iff.mpr ⟨subject ++ before, behind ++ value, rfl,
      Comparison.divides_of_clear clear hlast hhead hbefore hbehind, ?_⟩
    rw [Text.trim_append_blank hbefore, Text.trim_blank_append hbehind, hends.trim_eq,
      trimmed.trim_eq]
    exact ⟨hne, hvalueNe, hsubject, hvalue⟩

theorem stripComment_append (line comment : List Char) :
    stripComment (line ++ ';' :: comment) = stripComment line := by
  have stop : (';' :: comment).takeWhile (· != ';') = [] := rfl
  unfold stripComment
  rw [List.takeWhile_append, stop, List.append_nil]
  split
  · rename_i hlength
    rw [(List.takeWhile_prefix _).eq_of_length hlength]
  · rfl

theorem stripComment_of_not_mem {line : List Char} (h : ';' ∉ line) :
    stripComment line = Text.trim line := by
  unfold stripComment
  rw [List.takeWhile_eq_self_iff.mpr fun c hc => by simpa using ne_of_mem_of_not_mem hc h]

theorem parseLines_eq_ok_iff {number : Nat} {lines : List (List Char)} {as : List Assertion} :
    parseLines number lines = .ok as ↔
      List.Forall₂ (fun text a => Assertion.parse text = .ok a)
        ((lines.map stripComment).filter (! ·.isEmpty)) as := by
  induction lines generalizing number as with
  | nil => simp [parseLines, eq_comm]
  | cons line lines ih =>
    rw [List.map_cons, List.filter_cons]
    unfold parseLines
    dsimp only
    cases hempty : (stripComment line).isEmpty with
    | true => exact ih
    | false =>
      rw [if_neg Bool.false_ne_true, if_pos Bool.not_false, List.forall₂_cons_left_iff]
      cases hparse : Assertion.parse (stripComment line) with
      | error cause => simp
      | ok a =>
        constructor
        · intro h
          obtain ⟨rest, hrest, ⟨⟩⟩ := bind_eq_ok_iff.mp h
          exact ⟨a, rest, rfl, ih.mp hrest, rfl⟩
        · rintro ⟨a', rest, ⟨⟩, hrest, rfl⟩
          exact bind_eq_ok_iff.mpr ⟨rest, ih.mpr hrest, rfl⟩

theorem parseLines_congr {lines lines' : List (List Char)}
    (h : lines.map stripComment = lines'.map stripComment) (number : Nat) :
    parseLines number lines = parseLines number lines' := by
  induction lines generalizing lines' number with
  | nil =>
    obtain rfl : lines' = [] := List.map_eq_nil_iff.mp h.symm
    rfl
  | cons line lines ih =>
    obtain ⟨line', lines', rfl⟩ : ∃ line' rest, lines' = line' :: rest := by
      refine List.exists_cons_of_ne_nil ?_
      rintro rfl
      cases h
    obtain ⟨hline, hlines⟩ := List.cons_eq_cons.mp h
    unfold parseLines
    dsimp only
    rw [hline, ih hlines]

/-- A line that does not keep a block from being read: it is empty without its comment, or it is an
assertion. -/
def Readable (line : List Char) : Prop :=
  stripComment line = [] ∨ ∃ a, Assertion.parse (stripComment line) = .ok a

/-- A fault says what is left of a line without its comment, and why that is no assertion. -/
structure AssertionFault.Concerns (fault : AssertionFault) (line : List Char) : Prop where
  text : fault.text = String.ofList (stripComment line)
  ne_nil : stripComment line ≠ []
  cause : Assertion.parse (stripComment line) = .error fault.cause

theorem exists_refused_of_parseLines {number : Nat} {lines : List (List Char)}
    {fault : AssertionFault} (h : parseLines number lines = .error fault) :
    ∃ before line after, lines = before ++ line :: after ∧ (∀ l ∈ before, Readable l) ∧
      fault.line = number + before.length ∧ fault.Concerns line := by
  induction lines generalizing number with
  | nil => cases h
  | cons line lines ih =>
    have later (hline : Readable line) (h : parseLines (number + 1) lines = .error fault) :
        ∃ before l after, line :: lines = before ++ l :: after ∧ (∀ l ∈ before, Readable l) ∧
          fault.line = number + before.length ∧ fault.Concerns l := by
      obtain ⟨before, l, after, rfl, hbefore, hnumber, hfault⟩ := ih h
      refine ⟨line :: before, l, after, rfl, List.forall_mem_cons.mpr ⟨hline, hbefore⟩, ?_, hfault⟩
      rw [hnumber, List.length_cons, Nat.add_right_comm, Nat.add_assoc]
    unfold parseLines at h
    dsimp only at h
    split at h
    · rename_i hempty
      exact later (.inl (List.isEmpty_iff.mp hempty)) h
    · rename_i hempty
      split at h
      · rename_i cause hparse
        obtain rfl := Except.error.inj h
        exact ⟨[], line, lines, rfl, by simp, rfl, rfl, by simpa using hempty, hparse⟩
      · rename_i a hparse
        obtain hrest | ⟨as, -, hdone⟩ := bind_eq_error_iff.mp h
        · exact later (.inr ⟨a, hparse⟩) hrest
        · cases hdone

/-- What stands on the lines of a text that are not empty without their comments. -/
def statements (text : List Char) : List (List Char) :=
  ((Text.lines text).map stripComment).filter (! ·.isEmpty)

theorem Block.parse_eq_ok_iff {t : TestSection} {b : Block} : Block.parse t = .ok b ↔
    List.Forall₂ (fun text a => Assertion.parse text = .ok a)
      (statements t.content.toList) b.assertions ∧
    b.startLine = t.startLine ∧ b.endLine = t.endLine := by
  unfold Block.parse statements
  rw [bind_eq_ok_iff]
  constructor
  · rintro ⟨as, has, ⟨⟩⟩
    exact ⟨parseLines_eq_ok_iff.mp has, rfl, rfl⟩
  · obtain ⟨as, first, last⟩ := b
    rintro ⟨has, rfl, rfl⟩
    exact ⟨as, parseLines_eq_ok_iff.mpr has, rfl⟩

end BusMachine.InlineTest
