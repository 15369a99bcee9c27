/-!
Lines of a text. A line ends at a line feed, with a carriage return right before it not counted as
part of the line; what follows the last line feed is one more line unless it is empty.
-/

namespace BusMachine.Text

/-- Drops one carriage return at the end of a line that is held in reverse. -/
def dropReturn : List Char → List Char
  | '\r' :: rest => rest
  | line => line

/-- Collects lines: `done` holds the finished ones and `line` the current one, both in reverse. -/
def collectLines (done : List (List Char)) (line : List Char) : List Char → List (List Char)
  | [] => (if line.isEmpty then done else line.reverse :: done).reverse
  | c :: rest =>
    if c = '\n' then collectLines ((dropReturn line).reverse :: done) [] rest
    else collectLines done (c :: line) rest

def lines (text : List Char) : List (List Char) := collectLines [] [] text

theorem collectLines_eq_append (done : List (List Char)) (line text : List Char) :
    collectLines done line text = done.reverse ++ collectLines [] line text := by
  induction text generalizing done line with
  | nil => by_cases h : line.isEmpty <;> simp [collectLines, h]
  | cons c rest ih =>
    by_cases h : c = '\n'
    · simp only [collectLines, h, if_true]
      rw [ih, ih [_]]
      simp
    · simp only [collectLines, h, if_false]
      exact ih ..

end BusMachine.Text
