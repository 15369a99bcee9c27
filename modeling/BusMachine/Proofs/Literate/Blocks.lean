import BusMachine.Literate
import BusMachine.Proofs.Text.Trimming

/-!
The blocks of a document, said without a reader: a fence met outside of any block opens one, and the
block goes up to the first line of backticks that is long enough, or to the end of the document.
Reading shows the lines inside of program blocks, with an empty line for every other line, and
collects the contents of the test blocks.
-/

namespace BusMachine

namespace Literate

def closes (count : Nat) (line : List Char) : Bool :=
  decide (count ≤ (Text.trim line).length) && isBare line

structure Block where
  kind : BlockKind
  startLine : Nat
  content : List (List Char)
  closed : Bool
deriving DecidableEq, Repr

namespace Block

def endLine (b : Block) : Nat := b.startLine + b.content.length + if b.closed then 1 else 0

/-- A line is between the fences of a block. -/
def Encloses (b : Block) (number : Nat) : Prop :=
  b.startLine < number ∧ number ≤ b.startLine + b.content.length

instance (b : Block) (number : Nat) : Decidable (b.Encloses number) := instDecidableAnd

def test? (b : Block) : Option TestSection :=
  if b.kind = .test then
    some { content := unlines b.content, startLine := b.startLine, endLine := b.endLine }
  else none

end Block

def blocksFrom (number : Nat) : List (List Char) → List Block
  | [] => []
  | line :: rest =>
    match fenceLength? line with
    | none => blocksFrom (number + 1) rest
    | some count =>
      let content := rest.takeWhile (!closes count ·)
      { kind := kindOf line count, startLine := number, content,
        closed := decide (content.length < rest.length) } ::
        blocksFrom (number + content.length + 2) (rest.drop (content.length + 1))
termination_by lines => lines.length

def blocks (lines : List (List Char)) : List Block := blocksFrom 1 lines

def BlockKind.shown (kind : BlockKind) (line : List Char) : List Char :=
  if kind = .program then line else []

/-- A line with the number `number` is shown if it is inside of a program block. -/
def shownLine (blocks : List Block) (number : Nat) (line : List Char) : List Char :=
  if ∃ b ∈ blocks, b.kind = .program ∧ b.Encloses number then line else []

def shownLines (blocks : List Block) (number : Nat) (lines : List (List Char)) :
    List (List Char) :=
  lines.mapIdx fun i line => shownLine blocks (number + i) line

theorem three_le_fenceLength {line : List Char} {count : Nat} (h : fenceLength? line = some count) :
    3 ≤ count := by
  unfold fenceLength? at h
  dsimp only at h
  split at h
  · cases h
    assumption
  · cases h

theorem length_takeWhile_of_isBare {line : List Char} (h : isBare line = true) :
    ((Text.trimStart line).takeWhile (· == '\x60')).length = (Text.trim line).length := by
  obtain ⟨blank, hsplit, hblank⟩ := Text.trimEnd_append (Text.trimStart line)
  have stop : blank.takeWhile (· == '\x60') = [] := by
    cases blank with
    | nil => rfl
    | cons c blank =>
      have hne : c ≠ '\x60' := by
        rintro rfl
        exact absurd (hblank _ List.mem_cons_self) (by decide)
      simp [hne]
  rw [hsplit, List.takeWhile_append_of_pos (by simpa [isBare, Text.trim] using h), stop,
    List.append_nil]
  rfl

theorem closedBy_eq {b : OpenBlock} (h : 3 ≤ b.fence) (line : List Char) :
    b.closedBy line = closes b.fence line := by
  unfold OpenBlock.closedBy closes fenceLength?
  dsimp only
  cases hbare : isBare line with
  | false => split <;> simp
  | true =>
    rw [length_takeWhile_of_isBare hbare]
    by_cases hlong : 3 ≤ (Text.trim line).length
    · simp [hlong]
    · have short : ¬b.fence ≤ (Text.trim line).length := fun hle => hlong (h.trans hle)
      simp [hlong, short]

section Shown

variable {later : List Block} {b : Block} {number : Nat} {lines : List (List Char)}

theorem startLine_of_mem (h : b ∈ blocksFrom number lines) : number ≤ b.startLine := by
  fun_induction blocksFrom number lines with
  | case1 => simp at h
  | case2 number line rest hfence ih => exact (Nat.le_succ number).trans (ih h)
  | case3 number line rest count hfence content ih =>
    obtain rfl | hlater := List.mem_cons.mp h
    · exact Nat.le_refl _
    · have := ih hlater
      omega

@[simp] theorem shownLines_nil (blocks : List Block) (number : Nat) :
    shownLines blocks number [] = [] := rfl

theorem shownLines_cons (blocks : List Block) (number : Nat) (line : List Char)
    (rest : List (List Char)) : shownLines blocks number (line :: rest) =
      shownLine blocks number line :: shownLines blocks (number + 1) rest := by
  simp [shownLines, List.mapIdx_cons, Nat.add_assoc, Nat.add_comm 1]

theorem shownLines_append (blocks : List Block) (number : Nat) (lines more : List (List Char)) :
    shownLines blocks number (lines ++ more) =
      shownLines blocks number lines ++ shownLines blocks (number + lines.length) more := by
  simp [shownLines, List.mapIdx_append, Nat.add_assoc, Nat.add_comm lines.length]

theorem shownLine_eq_nil (h : ∀ b ∈ later, number ≤ b.startLine) (line : List Char) :
    shownLine later number line = [] := by
  refine if_neg ?_
  rintro ⟨b, hb, -, hstart, -⟩
  have := h b hb
  omega

theorem shownLines_content (hfirst : b.startLine < number)
    (hlast : number + lines.length ≤ b.startLine + b.content.length + 1)
    (hlater : ∀ other ∈ later, b.startLine + b.content.length ≤ other.startLine) :
    shownLines (b :: later) number lines = lines.map b.kind.shown := by
  induction lines generalizing number with
  | nil => rfl
  | cons line rest ih =>
    rw [List.length_cons] at hlast
    have inside : b.Encloses number := ⟨hfirst, by omega⟩
    have outside : ∀ other ∈ later, ¬other.Encloses number := by
      rintro other hother ⟨hstart, -⟩
      have := hlater other hother
      omega
    have first : shownLine (b :: later) number line = b.kind.shown line := by
      refine if_congr ⟨?_, fun hkind => ⟨b, List.mem_cons_self, hkind, inside⟩⟩ rfl rfl
      rintro ⟨other, hother, hkind, hencloses⟩
      obtain rfl | hother := List.mem_cons.mp hother
      · exact hkind
      · exact absurd hencloses (outside other hother)
    rw [shownLines_cons, List.map_cons, first, ih (by omega) (by omega)]

theorem shownLines_behind (h : b.startLine + b.content.length < number) :
    shownLines (b :: later) number lines = shownLines later number lines := by
  have outside : ∀ i, ¬b.Encloses (number + i) := by
    rintro i ⟨-, hlast⟩
    omega
  unfold shownLines
  congr 1
  funext i line
  simp [shownLine, outside i]

theorem shownLines_block
    (hlater : ∀ other ∈ later, b.startLine + b.content.length ≤ other.startLine)
    (line : List Char) : shownLines (b :: later) b.startLine (line :: b.content) =
      [] :: b.content.map b.kind.shown := by
  have opening : shownLine (b :: later) b.startLine line = [] := by
    refine shownLine_eq_nil (fun other hother => ?_) line
    obtain rfl | hother := List.mem_cons.mp hother
    · exact Nat.le_refl _
    · exact (Nat.le_add_right _ _).trans (hlater other hother)
  rw [shownLines_cons, opening, shownLines_content (Nat.lt_succ_self _) (by omega) hlater]

end Shown

def Reader.sections (r : Reader) : List TestSection :=
  match r.block with
  | some b => (close r.tests b r.count).reverse
  | none => r.tests.reverse

theorem foldl_step_content {b : OpenBlock} {content : List (List Char)}
    (h : ∀ line ∈ content, b.closedBy line = false) {r : Reader} (hr : r.block = some b) :
    content.foldl Reader.step r =
      { r with
        count := r.count + content.length
        block := some { b with lines := content.reverse ++ b.lines }
        program := (content.map b.kind.shown).reverse ++ r.program } := by
  induction content generalizing b r with
  | nil =>
    obtain ⟨count, block, program, tests⟩ := r
    cases hr
    rfl
  | cons line rest ih =>
    have stays : r.step line =
        { r with
          count := r.count + 1
          block := some { b with lines := line :: b.lines }
          program := b.kind.shown line :: r.program } := by
      simp [Reader.step, hr, h line List.mem_cons_self, BlockKind.shown]
    have next := ih (b := { b with lines := line :: b.lines })
      (fun other hother => h other (List.mem_cons_of_mem _ hother)) (r := r.step line)
      (by rw [stays])
    rw [List.foldl_cons, next, stays]
    simp [Nat.add_assoc, Nat.add_comm 1]

/-- What is read where no block is open. -/
structure Reader.Reads (number : Nat) (lines : List (List Char)) (r r' : Reader) : Prop where
  program : r'.program = (shownLines (blocksFrom number lines) number lines).reverse ++ r.program
  sections : r'.sections = r.tests.reverse ++ (blocksFrom number lines).filterMap Block.test?

section Cases

variable {number : Nat} {line : List Char} {rest : List (List Char)} {r : Reader}

theorem reads_prose (hfence : fenceLength? line = none) {r' : Reader}
    (h : Reader.Reads (number + 1) rest { r with count := number, program := [] :: r.program } r') :
    r.Reads number (line :: rest) r' := by
  have same : blocksFrom number (line :: rest) = blocksFrom (number + 1) rest := by
    rw [blocksFrom, hfence]
  have first : shownLine (blocksFrom (number + 1) rest) number line = [] :=
    shownLine_eq_nil (fun b hb => (Nat.le_succ number).trans (startLine_of_mem hb)) line
  refine ⟨?_, ?_⟩
  · rw [h.program, same, shownLines_cons, first]
    simp
  · rw [h.sections, same]

def openedBy (number : Nat) (line : List Char) (count : Nat) : OpenBlock :=
  { kind := kindOf line count, fence := count, startLine := number }

def Reader.within (r : Reader) (number : Nat) (line : List Char) (count : Nat)
    (content : List (List Char)) : Reader :=
  { r with
    count := number + content.length
    block := some { openedBy number line count with lines := content.reverse }
    program := (content.map (kindOf line count).shown).reverse ++ [] :: r.program }

theorem foldl_step_block (hblock : r.block = none) (hcount : r.count + 1 = number) {count : Nat}
    (hfence : fenceLength? line = some count) {content : List (List Char)}
    (hcontent : ∀ line ∈ content, closes count line = false) :
    (line :: content).foldl Reader.step r = r.within number line count content := by
  have opened : r.step line =
      { r with
        count := number
        block := some (openedBy number line count)
        program := [] :: r.program } := by
    simp [Reader.step, hblock, hfence, hcount, openedBy]
  have quiet : ∀ line' ∈ content, (openedBy number line count).closedBy line' = false :=
    fun line' hline' => by
      rw [closedBy_eq (three_le_fenceLength hfence)]
      exact hcontent line' hline'
  rw [List.foldl_cons, opened, foldl_step_content quiet rfl]
  simp [Reader.within, openedBy]

section Fence

variable {count : Nat} (hfence : fenceLength? line = some count) {content : List (List Char)}
  (hcontent : ∀ line ∈ content, closes count line = false)
include hfence hcontent

theorem blocksFrom_unclosed : blocksFrom number (line :: content) =
    [{ kind := kindOf line count, startLine := number, content, closed := false }] := by
  have whole : content.takeWhile (!closes count ·) = content :=
    List.takeWhile_eq_self_iff.mpr (by simpa using hcontent)
  have behind : content.drop (content.length + 1) = [] :=
    List.drop_eq_nil_of_le (Nat.le_succ _)
  rw [blocksFrom, hfence]
  simp [whole, behind, blocksFrom]

theorem blocksFrom_closed {closing : List Char} (hclosing : closes count closing = true)
    (more : List (List Char)) : blocksFrom number (line :: (content ++ closing :: more)) =
      { kind := kindOf line count, startLine := number, content, closed := true } ::
        blocksFrom (number + content.length + 2) more := by
  have inner : (content ++ closing :: more).takeWhile (!closes count ·) = content := by
    rw [List.takeWhile_append_of_pos (by simpa using hcontent)]
    simp [hclosing]
  rw [blocksFrom, hfence]
  simp [inner]

theorem reads_unclosed (r : Reader) :
    r.Reads number (line :: content) (r.within number line count content) := by
  let b : Block := { kind := kindOf line count, startLine := number, content, closed := false }
  have alone : ∀ other ∈ ([] : List Block), b.startLine + b.content.length ≤ other.startLine := by
    simp
  have shown := shownLines_block alone line
  refine ⟨?_, ?_⟩
  · rw [blocksFrom_unclosed hfence hcontent]
    simp only [b] at shown
    rw [shown]
    simp [Reader.within]
  · rw [blocksFrom_unclosed hfence hcontent]
    unfold Reader.within Reader.sections openedBy close Block.test? Block.endLine
    cases kindOf line count <;> simp

omit hcontent in
theorem step_within {closing : List Char} (hclosing : closes count closing = true) (r : Reader) :
    (r.within number line count content).step closing =
      { count := number + content.length + 1
        block := none
        program := [] :: (r.within number line count content).program
        tests := close r.tests { openedBy number line count with lines := content.reverse }
          (number + content.length + 1) } := by
  have closed : ({ openedBy number line count with lines := content.reverse } :
      OpenBlock).closedBy closing = true := by
    rw [closedBy_eq (three_le_fenceLength hfence)]
    exact hclosing
  simp [Reader.step, Reader.within, closed]

theorem reads_closed {closing : List Char} (hclosing : closes count closing = true)
    {more : List (List Char)} {r r' : Reader}
    (h : ((r.within number line count content).step closing).Reads
      (number + content.length + 2) more r') :
    r.Reads number (line :: (content ++ closing :: more)) r' := by
  let b : Block := { kind := kindOf line count, startLine := number, content, closed := true }
  have blocks : blocksFrom number (line :: (content ++ closing :: more)) =
      b :: blocksFrom (number + content.length + 2) more :=
    blocksFrom_closed hfence hcontent hclosing more
  have later : ∀ other ∈ blocksFrom (number + content.length + 2) more,
      number + content.length + 2 ≤ other.startLine := fun other => startLine_of_mem
  have fences : shownLines (b :: blocksFrom (number + content.length + 2) more)
      (number + (line :: content).length) (closing :: more) =
        [] :: shownLines (blocksFrom (number + content.length + 2) more)
          (number + content.length + 2) more := by
    have closingLine : shownLine (blocksFrom (number + content.length + 2) more)
        (number + content.length + 1) closing = [] :=
      shownLine_eq_nil (fun other hother => by have := later other hother; omega) closing
    rw [shownLines_behind (by simp [b]), List.length_cons, ← Nat.add_assoc,
      shownLines_cons, closingLine]
  have shown := shownLines_block (b := b) (fun other hother => by
    have := later other hother
    simp only [b]
    omega) line
  refine ⟨?_, ?_⟩
  · rw [h.program, blocks, step_within hfence hclosing, ← List.cons_append, shownLines_append,
      fences]
    simp only [b] at shown ⊢
    rw [shown]
    simp [Reader.within]
  · rw [h.sections, blocks, step_within hfence hclosing]
    simp only [b, openedBy, close, Block.test?, Block.endLine, List.filterMap_cons]
    cases kindOf line count <;> simp

end Fence

end Cases

theorem reads_of_foldl {number : Nat} {lines : List (List Char)} {r : Reader}
    (hblock : r.block = none) (hcount : r.count + 1 = number) :
    r.Reads number lines (lines.foldl Reader.step r) := by
  fun_induction blocksFrom number lines generalizing r with
  | case1 number =>
    refine ⟨by simp, ?_⟩
    simp [Reader.sections, hblock, blocksFrom]
  | case2 number line rest hfence ih =>
    have step : r.step line = { r with count := number, program := [] :: r.program } := by
      simp [Reader.step, hblock, hfence, hcount]
    refine reads_prose hfence ?_
    rw [List.foldl_cons, step]
    exact ih hblock rfl
  | case3 number line rest count hfence content =>
    rename_i ih
    have quiet : ∀ line ∈ content, closes count line = false := fun line hline => by
      simpa using List.mem_takeWhile_imp hline
    have split : rest = content ++ rest.dropWhile (!closes count ·) :=
      List.takeWhile_append_dropWhile.symm
    cases hafter : rest.dropWhile (!closes count ·) with
    | nil =>
      rw [hafter, List.append_nil] at split
      rw [split, foldl_step_block hblock hcount hfence quiet]
      exact reads_unclosed hfence quiet r
    | cons closing more =>
      have hclosing : closes count closing = true := by
        have stopped := List.head?_dropWhile_not (!closes count ·) rest
        simpa [hafter] using stopped
      have behind : rest.drop (content.length + 1) = more := by
        rw [hafter] at split
        rw [split]
        simp
      rw [behind] at ih
      rw [hafter] at split
      rw [split, ← List.cons_append, List.foldl_append, List.foldl_cons,
        foldl_step_block hblock hcount hfence quiet]
      have closed : (r.within number line count content).step closing = _ :=
        step_within hfence hclosing r
      exact reads_closed hfence quiet hclosing (ih (by rw [closed]) (by rw [closed]))

theorem read_eq (content : String) :
    read content =
      (unlines (shownLines (blocks (Text.lines content.toList)) 1 (Text.lines content.toList)),
        (blocks (Text.lines content.toList)).filterMap Block.test?) := by
  have reads : Reader.Reads 1 (Text.lines content.toList) {} _ := reads_of_foldl rfl rfl
  have program := reads.program
  have sections : _ = (blocksFrom 1 (Text.lines content.toList)).filterMap Block.test? :=
    reads.sections
  unfold read blocks
  dsimp only
  generalize (Text.lines content.toList).foldl Reader.step {} = r at program sections ⊢
  rw [← sections, program, List.append_nil, List.reverse_reverse]
  unfold Reader.sections
  cases r.block <;> rfl

example : (blocks (Text.lines "```bus8\nnop\n``\n````\n````bus8test\n```\n".toList)).map
    (fun b => (b.kind, b.startLine, b.endLine)) = [(.program, 1, 4), (.test, 5, 6)] := by
  decide +kernel

end Literate

end BusMachine
