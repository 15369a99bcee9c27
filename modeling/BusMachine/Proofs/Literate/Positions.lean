import BusMachine.Proofs.Assembly.Positions
import BusMachine.Proofs.Literate.Blocks
import BusMachine.Proofs.Text.Lines

/-!
Positions in a document. The program of a document has a line for each line of it, so a token of the
program is found in the document where its position says, and inside of a program block.
-/

namespace BusMachine

namespace Assembly

namespace Position

theorem behind_of_not_mem {text : List Char} (h : '\n' ∉ text) :
    behind text = ⟨1, text.length + 1⟩ := by
  have whole : text.reverse.takeWhile (· != '\n') = text.reverse :=
    List.takeWhile_eq_self_iff.mpr fun c hc => by
      simpa using ne_of_mem_of_not_mem (List.mem_reverse.mp hc) h
  simp [behind, whole, List.count_eq_zero.mpr h]

theorem behind_line_append {line : List Char} (h : '\n' ∉ line) (text : List Char) :
    behind (line ++ '\n' :: text) = ⟨(behind text).line + 1, (behind text).column⟩ := by
  have column : (text.reverse ++ '\n' :: line.reverse).takeWhile (· != '\n') =
      text.reverse.takeWhile (· != '\n') := by
    rw [List.takeWhile_append]
    split
    · rename_i hwhole
      have stop : ('\n' :: line.reverse).takeWhile (· != '\n') = [] := by simp
      rw [stop, List.append_nil, (List.takeWhile_prefix _).eq_of_length hwhole]
    · rfl
  simp [behind, List.count_append, List.count_eq_zero.mpr h, column]

theorem exists_line {lines : List (List Char)} (hlines : ∀ line ∈ lines, '\n' ∉ line)
    {before rest : List Char} (hsplit : lines.flatMap (· ++ ['\n']) = before ++ rest)
    (hrest : ∃ c ∈ rest.head?, c ≠ '\n') :
    ∃ i k line, behind before = ⟨i + 1, k + 1⟩ ∧ lines[i]? = some line ∧
      line.drop k = rest.takeWhile (· != '\n') := by
  induction lines generalizing before with
  | nil =>
    obtain ⟨-, rfl⟩ := List.append_eq_nil_iff.mp hsplit.symm
    simp at hrest
  | cons line lines ih =>
    have ⟨hline, hothers⟩ := List.forall_mem_cons.mp hlines
    rw [List.flatMap_cons, List.append_assoc, List.singleton_append] at hsplit
    obtain ⟨past, rfl, hpast⟩ | ⟨left, rfl, rfl⟩ := List.append_eq_append_iff.mp hsplit
    · -- the position is behind the line feed, so the other lines hold it
      cases past with
      | nil =>
        obtain rfl : rest = _ := hpast.symm
        simp at hrest
      | cons c past =>
        have ⟨hc, hlines⟩ := List.cons.inj hpast
        subst hc
        obtain ⟨i, k, other, hposition, hother, hdrop⟩ := ih hothers hlines
        refine ⟨i + 1, k, other, ?_, by simpa using hother, hdrop⟩
        rw [behind_line_append hline, hposition]
    · have ⟨hbefore, hleft⟩ : '\n' ∉ before ∧ '\n' ∉ left := by simpa using hline
      have run : (left ++ '\n' :: lines.flatMap (· ++ ['\n'])).takeWhile (· != '\n') = left := by
        rw [List.takeWhile_append_of_pos fun c hc => by
          simpa using ne_of_mem_of_not_mem hc hleft]
        simp
      exact ⟨0, before.length, before ++ left, behind_of_not_mem hbefore, rfl, by simp [run]⟩

end Position

/-- A line begins with a lexeme, of which a string may go on behind it. -/
def Lexeme.Opens (line : List Char) : Lexeme → Prop
  | .word run => run.toList = line.takeWhile (!isBlank ·) ∧ ∃ c ∈ line.head?, startsWord c = true
  | .string _ _ => line.head? = some '"'

theorem isBlank_newline : isBlank '\n' = true := rfl

theorem Lexeme.Heads.exists_head {text : List Char} {lexeme : Lexeme} (h : lexeme.Heads text) :
    ∃ c ∈ text.head?, isBlank c = false := by
  unfold Heads at h
  split at h
  · obtain ⟨-, c, hc, hstart⟩ := h
    simp only [startsWord, Bool.and_eq_true, Bool.not_eq_true'] at hstart
    exact ⟨c, hc, hstart.1.1⟩
  · obtain ⟨body, rest, rfl, -⟩ := h
    exact ⟨'"', rfl, rfl⟩
  · obtain ⟨body, rfl, -⟩ := h
    exact ⟨'"', rfl, rfl⟩

theorem Lexeme.not_opens_nil (lexeme : Lexeme) : ¬lexeme.Opens [] := by
  cases lexeme <;> simp [Opens]

theorem Lexeme.Heads.opens {text : List Char} {lexeme : Lexeme} (h : lexeme.Heads text) :
    lexeme.Opens (text.takeWhile (· != '\n')) := by
  have head : ∀ c ∈ text.head?, c ≠ '\n' → c ∈ (text.takeWhile (· != '\n')).head? := by
    intro c hc hne
    cases text with
    | nil => simp at hc
    | cons d text =>
      obtain rfl : d = c := by simpa using hc
      simp [hne]
  unfold Heads at h
  split at h
  · obtain ⟨hrun, c, hc, hstart⟩ := h
    refine ⟨?_, c, head c hc ?_, hstart⟩
    · rw [hrun, List.takeWhile_takeWhile]
      congr 1
      funext d
      by_cases hd : d = '\n' <;> simp [hd, isBlank_newline]
    · rintro rfl
      simp [startsWord, isBlank_newline] at hstart
  · obtain ⟨body, rest, rfl, -⟩ := h
    rfl
  · obtain ⟨body, rfl, -⟩ := h
    rfl

/-- A token is found on a line inside of a program block of a document, where its position says. -/
def Token.StandsInProgram (lines : List (List Char)) (t : Token) : Prop :=
  ∃ i k line, t.position = ⟨i + 1, k + 1⟩ ∧ lines[i]? = some line ∧ t.lexeme.Opens (line.drop k) ∧
    ∃ b ∈ Literate.blocks lines, b.kind = .program ∧ b.Encloses (i + 1)

end Assembly

namespace Literate

open Assembly

theorem getElem?_shownLines (blocks : List Block) (number i : Nat) (lines : List (List Char)) :
    (shownLines blocks number lines)[i]? = lines[i]?.map (shownLine blocks (number + i)) :=
  List.getElem?_mapIdx

theorem shownLine_ne_nil {blocks : List Block} {number : Nat} {line : List Char}
    (h : shownLine blocks number line ≠ []) : shownLine blocks number line = line ∧
      ∃ b ∈ blocks, b.kind = .program ∧ b.Encloses number := by
  unfold shownLine at h ⊢
  split at h
  · rename_i hblock
    exact ⟨if_pos hblock, hblock⟩
  · exact absurd rfl h

theorem exists_block_of_shown {lines : List (List Char)} {i : Nat} {line : List Char}
    (h : (shownLines (blocks lines) 1 lines)[i]? = some line) (hne : line ≠ []) :
    lines[i]? = some line ∧ ∃ b ∈ blocks lines, b.kind = .program ∧ b.Encloses (i + 1) := by
  rw [getElem?_shownLines, Nat.add_comm] at h
  obtain ⟨original, horiginal, rfl⟩ := Option.map_eq_some_iff.mp h
  have ⟨same, block⟩ := shownLine_ne_nil hne
  exact ⟨horiginal.trans (congrArg some same.symm), block⟩

theorem newline_not_mem_shownLines {lines : List (List Char)} (h : ∀ line ∈ lines, '\n' ∉ line) :
    ∀ line ∈ shownLines (blocks lines) 1 lines, '\n' ∉ line := by
  intro line hline
  obtain ⟨i, hi⟩ := List.mem_iff_getElem?.mp hline
  by_cases hne : line = []
  · simp [hne]
  · exact h line (List.mem_of_getElem? (exists_block_of_shown hi hne).1)

theorem standsInProgram_of_scan {content : String} {t : Token}
    (h : t ∈ Token.scan (read content).1) : t.StandsInProgram (Text.lines content.toList) := by
  obtain ⟨before, rest, hsplit, hposition, hheads⟩ := (standsIn_scan _).1 t h
  obtain ⟨c, hc, hblank⟩ := hheads.exists_head
  have hne : c ≠ '\n' := by
    rintro rfl
    simp [isBlank_newline] at hblank
  have lines := newline_not_mem_shownLines (Text.newline_not_mem_lines content.toList)
  rw [read_eq, unlines, String.toList_ofList] at hsplit
  obtain ⟨i, k, line, hplace, hline, hdrop⟩ :=
    Position.exists_line lines hsplit ⟨c, hc, hne⟩
  have opens : t.lexeme.Opens (line.drop k) := hdrop ▸ hheads.opens
  have shown : line ≠ [] := by
    rintro rfl
    rw [List.drop_nil] at opens
    exact t.lexeme.not_opens_nil opens
  have ⟨horiginal, hblock⟩ := exists_block_of_shown hline shown
  exact ⟨i, k, line, hposition.trans hplace, horiginal, opens, hblock⟩

/-- The tokens of a text stand where their positions say, each behind the one before it. Those of a
document stand so in the document itself, inside of its program blocks. -/
theorem positions_truthful :
    (∀ source, (∀ t ∈ Token.scan source, t.StandsIn source.toList) ∧
      (Token.scan source).Pairwise (·.position < ·.position)) ∧
    ∀ path content, isDocument path = true →
      ∀ t ∈ Token.scan (Source.ofFile path content).program,
        t.StandsInProgram (Text.lines content.toList) := by
  refine ⟨standsIn_scan, fun path content hpath t ht => ?_⟩
  rw [Source.ofFile, if_pos hpath] at ht
  exact standsInProgram_of_scan ht

def nestedDocument : String := "nop\r\n````bus8\r\n``` nop\r\n\t \"hlt\r\n"

theorem positions_truthful_nested :
    isDocument "nested.md" = true ∧
      ⟨.word "nop", ⟨3, 5⟩⟩ ∈ Token.scan (Source.ofFile "nested.md" nestedDocument).program ∧
      Token.StandsInProgram (Text.lines nestedDocument.toList) ⟨.word "nop", ⟨3, 5⟩⟩ := by
  have document : isDocument "nested.md" = true := by decide +kernel
  have scanned : ⟨.word "nop", ⟨3, 5⟩⟩ ∈
      Token.scan (Source.ofFile "nested.md" nestedDocument).program := by decide +kernel
  exact ⟨document, scanned, positions_truthful.2 _ _ document _ scanned⟩

end Literate

end BusMachine
