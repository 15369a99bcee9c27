import BusMachine.Literate

/-!
Lines and texts. No line has a line feed in it, and lines that are written one below the other are
the lines of the text, unless a carriage return at the end of one is lost.
-/

namespace BusMachine

namespace Text

theorem newline_not_mem_collectLines {done : List (List Char)} {line : List Char}
    (hdone : ∀ l ∈ done, '\n' ∉ l) (hline : '\n' ∉ line) (text : List Char) :
    ∀ l ∈ collectLines done line text, '\n' ∉ l := by
  induction text generalizing done line with
  | nil =>
    unfold collectLines
    split
    · simpa using hdone
    · intro l hl
      obtain hl | rfl := by simpa using hl
      · exact hdone l hl
      · simpa using hline
  | cons c rest ih =>
    unfold collectLines
    split
    · refine ih ?_ (by simp)
      have shorter : '\n' ∉ dropReturn line := by
        unfold dropReturn
        split
        · exact fun h => hline (List.mem_cons_of_mem _ h)
        · exact hline
      simpa using ⟨shorter, hdone⟩
    · rename_i hc
      exact ih hdone (by simpa using ⟨Ne.symm hc, hline⟩)

theorem newline_not_mem_lines (text : List Char) : ∀ line ∈ lines text, '\n' ∉ line :=
  newline_not_mem_collectLines (by simp) (by simp) text

theorem collectLines_append {text : List Char} (h : '\n' ∉ text) (done : List (List Char))
    (line rest : List Char) :
    collectLines done line (text ++ rest) = collectLines done (text.reverse ++ line) rest := by
  induction text generalizing line with
  | nil => rfl
  | cons c text ih =>
    obtain ⟨hc, htext⟩ := not_or.mp (mt List.mem_cons.mpr h)
    rw [List.cons_append, collectLines, if_neg (Ne.symm hc), ih htext, List.reverse_cons,
      List.append_assoc]
    rfl

theorem dropReturn_reverse {line : List Char} (h : line.getLast? ≠ some '\r') :
    dropReturn line.reverse = line.reverse := by
  rw [← List.head?_reverse] at h
  unfold dropReturn
  split
  · rename_i heq
    rw [heq] at h
    exact absurd rfl h
  · rfl

/-- A line as it is read back, without a carriage return at its end. -/
def withoutReturn (line : List Char) : List Char := (dropReturn line.reverse).reverse

theorem lines_line_append {line : List Char} (hline : '\n' ∉ line) (rest : List Char) :
    lines (line ++ '\n' :: rest) = withoutReturn line :: lines rest := by
  unfold lines
  rw [collectLines_append hline, collectLines, if_pos rfl, List.append_nil, collectLines_eq_append]
  rfl

theorem withoutReturn_eq_self {line : List Char} (h : line.getLast? ≠ some '\r') :
    withoutReturn line = line := by
  rw [withoutReturn, dropReturn_reverse h, List.reverse_reverse]

theorem eq_withoutReturn_append (line : List Char) :
    line = withoutReturn line ∨ line = withoutReturn line ++ ['\r'] := by
  unfold withoutReturn dropReturn
  split
  · rename_i before hline
    exact .inr (by rw [← List.reverse_cons, ← hline, List.reverse_reverse])
  · exact .inl (List.reverse_reverse line).symm

end Text

namespace Literate

theorem lines_unlines_eq_map {lines : List (List Char)} (hline : ∀ line ∈ lines, '\n' ∉ line) :
    Text.lines (unlines lines).toList = lines.map Text.withoutReturn := by
  unfold unlines
  rw [String.toList_ofList]
  induction lines with
  | nil => rfl
  | cons line lines ih =>
    obtain ⟨hfirst, hline⟩ := List.forall_mem_cons.mp hline
    rw [List.flatMap_cons, List.append_assoc, List.singleton_append,
      Text.lines_line_append hfirst, ih hline, List.map_cons]

theorem lines_unlines {lines : List (List Char)} (hline : ∀ line ∈ lines, '\n' ∉ line)
    (hreturn : ∀ line ∈ lines, line.getLast? ≠ some '\r') :
    Text.lines (unlines lines).toList = lines := by
  rw [lines_unlines_eq_map hline]
  exact (List.map_congr_left fun line hmem =>
    Text.withoutReturn_eq_self (hreturn line hmem)).trans (List.map_id _)

end Literate

end BusMachine
