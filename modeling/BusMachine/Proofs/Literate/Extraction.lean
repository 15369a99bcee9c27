import BusMachine.Proofs.InlineTest.Reading
import BusMachine.Proofs.Literate.Blocks
import BusMachine.Proofs.Text.Lines

/-!
What a document is taken apart into. Its blocks are said by where they are: behind a fence that no
other block covers, up to the first line that closes them or to the end. There is one list of such
blocks; the program shows what is inside of its program blocks, and its test blocks are read by
themselves, so that a fault in one of them is about a line of the document.
-/

namespace BusMachine

namespace Literate

/-- A fence: at least three backticks behind white space, and what is behind them. -/
inductive Fence (count : Nat) (info : List Char) : List Char → Prop
  | mk {blank : List Char} (white : ∀ c ∈ blank, Text.isWhitespace c = true) (long : 3 ≤ count)
      (stop : info.head? ≠ some '\x60') :
      Fence count info (blank ++ (List.replicate count '\x60' ++ info))

/-- A line that ends a block: at least `count` backticks between white space. -/
inductive Closing (count : Nat) : List Char → Prop
  | mk {before after : List Char} {n : Nat} (whiteBefore : ∀ c ∈ before, Text.isWhitespace c = true)
      (whiteAfter : ∀ c ∈ after, Text.isWhitespace c = true) (long : count ≤ n) :
      Closing count (before ++ List.replicate n '\x60' ++ after)

def tag (info : List Char) : String := String.ofList (Text.firstWord info)

section Fences

variable {line info : List Char} {count : Nat}

theorem Fence.backticks (h : Fence count info line) :
    fenceLength? line = some count ∧ info = (Text.trimStart line).drop count := by
  obtain ⟨white, long, stop⟩ := h
  have trimmed : ∀ c ∈ (List.replicate count '\x60' ++ info).head?,
      Text.isWhitespace c = false := by
    obtain ⟨n, rfl⟩ : ∃ n, count = n + 1 := ⟨count - 1, by omega⟩
    rw [List.replicate_succ, List.cons_append, List.head?_cons]
    exact fun c hc => Option.mem_some.mp hc ▸ by decide
  have behind : info.takeWhile (· == '\x60') = [] := by
    cases info with
    | nil => rfl
    | cons c info =>
      refine List.takeWhile_cons_of_neg fun hc => stop ?_
      rw [List.head?_cons, eq_of_beq hc]
  unfold fenceLength?
  rw [Text.trimStart_append white, Text.trimStart_eq_self trimmed,
    List.takeWhile_append_of_pos (by simp), behind]
  simp [long]

theorem fence_of_fenceLength? (h : fenceLength? line = some count) :
    Fence count ((Text.trimStart line).drop count) line := by
  have long := three_le_fenceLength h
  unfold fenceLength? at h
  dsimp only at h
  split at h
  · have length : ((Text.trimStart line).takeWhile (· == '\x60')).length = count :=
      Option.some.inj h
    have backticks : (Text.trimStart line).takeWhile (· == '\x60') =
        List.replicate count '\x60' :=
      List.eq_replicate_iff.mpr
        ⟨length, fun c hc => eq_of_beq (List.all_eq_true.mp List.all_takeWhile c hc)⟩
    have split : List.replicate count '\x60' ++
        (Text.trimStart line).dropWhile (· == '\x60') = Text.trimStart line := by
      rw [← backticks, List.takeWhile_append_dropWhile]
    have whole : line.takeWhile Text.isWhitespace ++ Text.trimStart line = line :=
      List.takeWhile_append_dropWhile
    have info : (Text.trimStart line).drop count =
        (Text.trimStart line).dropWhile (· == '\x60') := by
      conv_lhs => rw [← split]
      exact List.drop_left' List.length_replicate
    have stop : ((Text.trimStart line).dropWhile (· == '\x60')).head? ≠ some '\x60' := by
      intro hhead
      have stopped := List.head?_dropWhile_not (· == '\x60') (Text.trimStart line)
      rw [hhead] at stopped
      cases stopped
    have fence := Fence.mk (List.all_eq_true.mp (List.all_takeWhile (l := line))) long stop
    rw [split, whole] at fence
    rw [info]
    exact fence
  · cases h

theorem closes_iff : closes count line = true ↔ Closing count line := by
  unfold closes isBare
  rw [Bool.and_eq_true, decide_eq_true_iff, List.all_eq_true]
  constructor
  · rintro ⟨long, bare⟩
    have backticks : Text.trim line = List.replicate (Text.trim line).length '\x60' :=
      List.eq_replicate_iff.mpr ⟨rfl, fun c hc => eq_of_beq (bare c hc)⟩
    obtain ⟨after, hafter, whiteAfter⟩ := Text.trimEnd_append (Text.trimStart line)
    have whole : line = line.takeWhile Text.isWhitespace ++
        List.replicate (Text.trim line).length '\x60' ++ after := by
      rw [← backticks, List.append_assoc, Text.trim, ← hafter, Text.trimStart,
        List.takeWhile_append_dropWhile]
    rw [whole]
    exact .mk (List.all_eq_true.mp List.all_takeWhile) whiteAfter long
  · rintro @⟨before, after, n, whiteBefore, whiteAfter, long⟩
    have trimmed : Text.Trimmed (List.replicate n '\x60') :=
      .of_forall fun c hc => List.eq_of_mem_replicate hc ▸ by decide
    rw [Text.trim_append whiteBefore whiteAfter, trimmed.trim_eq, List.length_replicate]
    exact ⟨long, fun c hc => by rw [List.eq_of_mem_replicate hc]; rfl⟩

theorem kindOf_eq (line : List Char) (count : Nat) : kindOf line count =
    if tag ((Text.trimStart line).drop count) == "bus8" then .program
    else if tag ((Text.trimStart line).drop count) == "bus8test" then .test else .other :=
  rfl

theorem Fence.kindOf_eq_program_iff (h : Fence count info line) :
    kindOf line count = .program ↔ tag info = "bus8" := by
  rw [kindOf_eq, ← h.backticks.2]
  split
  · rename_i htag
    simpa using htag
  · rename_i htag
    split <;> simpa using htag

theorem Fence.kindOf_eq_test_iff (h : Fence count info line) :
    kindOf line count = .test ↔ tag info = "bus8test" := by
  rw [kindOf_eq, ← h.backticks.2]
  split
  · rename_i htag
    simp [eq_of_beq htag]
  · split
    · rename_i htag
      simpa using htag
    · rename_i htag
      simpa using htag

end Fences

/-- The lines behind the fence of a block: its content, none of which closes it, and then a line
that does, unless there is no other line. -/
inductive Block.Fills (b : Block) (count : Nat) : List (List Char) → Prop
  | closed {closing : List Char} {after : List (List Char)} (hclosed : b.closed = true)
      (inner : ∀ line ∈ b.content, ¬Closing count line) (closes : Closing count closing) :
      Fills b count (b.content ++ closing :: after)
  | unclosed (hclosed : b.closed = false) (inner : ∀ line ∈ b.content, ¬Closing count line) :
      Fills b count b.content

/-- A block is where lines have it, the first of which has the number `number`: behind a fence,
whose tag says what the block is for, and up to the first line that closes it or to the last one. -/
inductive Block.Spans (number : Nat) (lines : List (List Char)) (b : Block) : Prop
  | behind {before : List (List Char)} {fence : List Char} {rest : List (List Char)} {count : Nat}
      {info : List Char} (split : lines = before ++ fence :: rest)
      (start : b.startLine = number + before.length) (opens : Fence count info fence)
      (program : b.kind = .program ↔ tag info = "bus8")
      (test : b.kind = .test ↔ tag info = "bus8test") (fills : b.Fills count rest)

/-- A list of blocks divides lines: the blocks are apart and in order, and no fence is outside of
them. -/
structure Divides (number : Nat) (lines : List (List Char)) (bs : List Block) : Prop where
  spans : ∀ b ∈ bs, b.Spans number lines
  apart : bs.Pairwise fun b later => b.endLine < later.startLine
  covered : ∀ i line, lines[i]? = some line → (∃ count info, Fence count info line) →
    ∃ b ∈ bs, b.startLine ≤ number + i ∧ number + i ≤ b.endLine

def blockBehind (number : Nat) (fence : List Char) (count : Nat)
    (rest : List (List Char)) : Block :=
  let content := rest.takeWhile (!closes count ·)
  { kind := kindOf fence count, startLine := number, content,
    closed := decide (content.length < rest.length) }

section Places

variable {number count : Nat} {line : List Char} {lines rest : List (List Char)} {b : Block}
  {bs : List Block}

theorem Block.fills_iff : b.Fills count rest ↔ b.content = rest.takeWhile (!closes count ·) ∧
    (b.closed = true ↔ b.content.length < rest.length) := by
  constructor
  · rintro (@⟨closing, after, hclosed, inner, closes⟩ | ⟨hclosed, inner⟩)
    · have kept : ∀ line ∈ b.content, (!Literate.closes count line) = true := fun line hline => by
        simpa using mt closes_iff.mp (inner line hline)
      have stop : (closing :: after).takeWhile (!Literate.closes count ·) = [] :=
        List.takeWhile_cons_of_neg (by simpa using closes_iff.mpr closes)
      rw [List.takeWhile_append_of_pos kept, stop, List.append_nil]
      simp [hclosed]
    · have kept : ∀ line ∈ b.content, (!closes count line) = true := fun line hline => by
        simpa using mt closes_iff.mp (inner line hline)
      simp [hclosed, List.takeWhile_eq_self_iff.mpr kept]
  · rintro ⟨content, closed⟩
    have inner : ∀ line ∈ b.content, ¬Closing count line := fun line hline hcloses => by
      rw [content] at hline
      simpa [closes_iff.mpr hcloses] using List.mem_takeWhile_imp hline
    have split : rest = b.content ++ rest.dropWhile (!closes count ·) := by
      rw [content, List.takeWhile_append_dropWhile]
    cases hafter : rest.dropWhile (!closes count ·) with
    | nil =>
      rw [hafter, List.append_nil] at split
      rw [split, lt_self_iff_false, iff_false, Bool.not_eq_true] at closed
      rw [split]
      exact .unclosed closed inner
    | cons closing after =>
      have stopped := List.head?_dropWhile_not (!closes count ·) rest
      rw [hafter] at split stopped
      rw [split] at closed ⊢
      exact .closed (closed.mpr (by simp)) inner (closes_iff.mp (by simpa using stopped))

theorem Block.Spans.startLine_lt (h : b.Spans number lines) :
    number ≤ b.startLine ∧ b.startLine < number + lines.length := by
  obtain ⟨rfl, start, -, -, -, -⟩ := h
  rw [start, List.length_append, List.length_cons]
  omega

theorem Block.startLine_le_endLine (b : Block) : b.startLine ≤ b.endLine := by
  unfold endLine
  omega

theorem Block.Spans.endLine_eq (h : b.Spans number lines) :
    b.endLine + 1 = min (b.startLine + b.content.length + 2) (number + lines.length) := by
  obtain @⟨before, fence, rest, count, info, rfl, start, -, -, -, fills⟩ := h
  obtain ⟨content, closed⟩ := fills_iff.mp fills
  have length : b.content.length ≤ rest.length := by
    rw [content]
    exact (List.takeWhile_prefix _).length_le
  unfold endLine
  rw [start, List.length_append, List.length_cons]
  split
  · rename_i hclosed
    have := closed.mp hclosed
    omega
  · rename_i hclosed
    have := mt closed.mpr hclosed
    omega

theorem Block.spans_drop_iff {k : Nat} : b.Spans (number + k) (lines.drop k) ↔
    b.Spans number lines ∧ number + k ≤ b.startLine := by
  constructor
  · rintro @⟨before, fence, rest, count, info, split, start, opens, program, test, fills⟩
    have front : (lines.take k).length = k := by
      rw [List.length_take_of_le]
      by_contra hlt
      rw [List.drop_eq_nil_of_le (Nat.le_of_not_le hlt)] at split
      simp at split
    have whole : lines = (lines.take k ++ before) ++ fence :: rest := by
      rw [List.append_assoc, ← split, List.take_append_drop]
    refine ⟨.behind whole ?_ opens program test fills, ?_⟩
    · rw [start, List.length_append, front, Nat.add_assoc]
    · rw [start]
      exact Nat.le_add_right _ _
  · rintro ⟨@⟨before, fence, rest, count, info, rfl, start, opens, program, test, fills⟩, hk⟩
    have inside : k ≤ before.length := by omega
    refine .behind (List.drop_append_of_le_length inside) ?_ opens program test fills
    rw [List.length_drop]
    omega

theorem Block.spans_cons_iff_of_prose (h : fenceLength? line = none) :
    b.Spans number (line :: rest) ↔ b.Spans (number + 1) rest := by
  have later : b.Spans (number + 1) ((line :: rest).drop 1) ↔ _ := spans_drop_iff
  rw [List.drop_one, List.tail_cons] at later
  rw [later]
  refine ⟨fun spans => ⟨spans, ?_⟩, fun spans => spans.1⟩
  obtain @⟨before, fence, rest', count, info, split, start, opens, -⟩ := spans
  cases before with
  | nil =>
    obtain ⟨rfl, -⟩ := List.cons.inj split
    rw [opens.backticks.1] at h
    cases h
  | cons first before =>
    rw [start, List.length_cons]
    omega

theorem spans_blockBehind (h : fenceLength? line = some count) :
    (blockBehind number line count rest).Spans number (line :: rest) :=
  have opens := fence_of_fenceLength? h
  .behind (List.nil_append _).symm rfl opens opens.kindOf_eq_program_iff opens.kindOf_eq_test_iff
    (Block.fills_iff.mpr ⟨rfl, decide_eq_true_iff⟩)

theorem Block.Spans.eq_blockBehind (h : fenceLength? line = some count)
    (spans : b.Spans number (line :: rest)) (hstart : b.startLine = number) :
    b = blockBehind number line count rest := by
  obtain @⟨before, fence, rest', count', info, split, start, opens, program, test, fills⟩ := spans
  obtain rfl : before = [] := List.eq_nil_of_length_eq_zero (by omega)
  obtain ⟨rfl, rfl⟩ := List.cons.inj split
  obtain rfl : count = count' := Option.some.inj (h.symm.trans opens.backticks.1)
  obtain ⟨content, closed⟩ := fills_iff.mp fills
  have kind : b.kind = kindOf line count := by
    rw [← opens.kindOf_eq_program_iff] at program
    rw [← opens.kindOf_eq_test_iff] at test
    cases hb : b.kind <;> cases hk : kindOf line count <;> simp_all
  have closed' : b.closed = decide (b.content.length < rest.length) := by
    rw [Bool.eq_iff_iff, decide_eq_true_iff]
    exact closed
  obtain ⟨bkind, bstart, bcontent, bclosed⟩ := b
  simp only at kind content closed' hstart
  unfold blockBehind
  simp only [kind, hstart, closed', content]

theorem divides_nil_iff : Divides number [] bs ↔ bs = [] := by
  constructor
  · intro h
    refine List.eq_nil_iff_forall_not_mem.mpr fun b hb => ?_
    have ⟨hle, hlt⟩ := (h.spans b hb).startLine_lt
    rw [List.length_nil] at hlt
    omega
  · rintro rfl
    exact ⟨by simp, .nil, by simp⟩

theorem divides_cons_iff_of_prose (h : fenceLength? line = none) :
    Divides number (line :: rest) bs ↔ Divides (number + 1) rest bs := by
  constructor
  · rintro ⟨spans, apart, covered⟩
    refine ⟨fun b hb => (Block.spans_cons_iff_of_prose h).mp (spans b hb), apart,
      fun i l hl hf => ?_⟩
    rw [Nat.add_assoc, Nat.add_comm 1]
    exact covered (i + 1) l (by simpa using hl) hf
  · rintro ⟨spans, apart, covered⟩
    refine ⟨fun b hb => (Block.spans_cons_iff_of_prose h).mpr (spans b hb), apart,
      fun i l hl hf => ?_⟩
    cases i with
    | zero =>
      obtain rfl : line = l := by simpa using hl
      obtain ⟨count, info, opens⟩ := hf
      rw [opens.backticks.1] at h
      cases h
    | succ i =>
      rw [Nat.add_comm i, ← Nat.add_assoc]
      exact covered i l (by simpa using hl) hf

theorem Divides.exists_cons (h : fenceLength? line = some count)
    (hbs : Divides number (line :: rest) bs) :
    ∃ later, bs = blockBehind number line count rest :: later := by
  obtain ⟨b, hb, hle, -⟩ := hbs.covered 0 line rfl ⟨_, _, fence_of_fenceLength? h⟩
  obtain ⟨hge, -⟩ := (hbs.spans b hb).startLine_lt
  obtain rfl := (hbs.spans b hb).eq_blockBehind h (by omega)
  obtain ⟨before, later, rfl⟩ := List.append_of_mem hb
  cases before with
  | nil => exact ⟨later, rfl⟩
  | cons earlier before =>
    have hlt := (List.pairwise_cons.mp hbs.apart).1 _
      (List.mem_append_right before List.mem_cons_self)
    obtain ⟨hge', -⟩ := (hbs.spans earlier List.mem_cons_self).startLine_lt
    have := earlier.startLine_le_endLine
    omega

theorem divides_cons_iff_of_fence (h : fenceLength? line = some count)
    {first : Block} (hfirst : first = blockBehind number line count rest) :
    Divides number (line :: rest) bs ↔
      ∃ later, bs = first :: later ∧ Divides (number + first.content.length + 2)
        (rest.drop (first.content.length + 1)) later := by
  have place : first.Spans number (line :: rest) := by
    rw [hfirst]
    exact spans_blockBehind h
  have start : first.startLine = number := by rw [hfirst]; rfl
  have last := place.endLine_eq
  rw [start, List.length_cons] at last
  have behind (b : Block) : b.Spans (number + first.content.length + 2)
      (rest.drop (first.content.length + 1)) ↔
        b.Spans number (line :: rest) ∧ number + first.content.length + 2 ≤ b.startLine := by
    have later : b.Spans (number + (first.content.length + 2))
        ((line :: rest).drop (first.content.length + 2)) ↔ _ := Block.spans_drop_iff
    exact later
  have skipped (i : Nat) : (rest.drop (first.content.length + 1))[i]? =
      (line :: rest)[first.content.length + 2 + i]? := by
    rw [List.getElem?_drop, Nat.add_right_comm _ 2, List.getElem?_cons_succ, Nat.add_right_comm]
  constructor
  · intro hbs
    obtain ⟨later, rfl⟩ := hbs.exists_cons h
    rw [← hfirst] at hbs
    obtain ⟨spans, apart, covered⟩ := hbs
    have ⟨hlater, apart⟩ := List.pairwise_cons.mp apart
    refine ⟨later, by rw [hfirst], fun b hb => (behind b).mpr ?_, apart, fun i l hl hf => ?_⟩
    · have placed := spans b (List.mem_cons_of_mem _ hb)
      obtain ⟨-, hlt⟩ := placed.startLine_lt
      have := hlater b hb
      rw [List.length_cons] at hlt
      exact ⟨placed, by omega⟩
    · obtain ⟨b, hb, hle, hge⟩ := covered (first.content.length + 2 + i) l
        (by rw [← skipped, hl]) hf
      obtain rfl | hb := List.mem_cons.mp hb
      · omega
      · exact ⟨b, hb, by omega, by omega⟩
  · rintro ⟨later, rfl, spans, apart, covered⟩
    refine ⟨List.forall_mem_cons.mpr ⟨place, fun b hb => ((behind b).mp (spans b hb)).1⟩,
      List.pairwise_cons.mpr ⟨fun b hb => ?_, apart⟩, fun i l hl hf => ?_⟩
    · have := ((behind b).mp (spans b hb)).2
      omega
    · have inside : i < rest.length + 1 := (List.getElem?_eq_some_iff.mp hl).1
      by_cases hi : i < first.content.length + 2
      · exact ⟨first, List.mem_cons_self, by omega, by omega⟩
      · obtain ⟨j, rfl⟩ := Nat.exists_eq_add_of_le (Nat.le_of_not_lt hi)
        obtain ⟨b, hb, hle, hge⟩ := covered j l
          (by rw [skipped, hl]) hf
        exact ⟨b, List.mem_cons_of_mem _ hb, by omega, by omega⟩

theorem divides_iff : Divides number lines bs ↔ bs = blocksFrom number lines := by
  fun_induction blocksFrom number lines generalizing bs with
  | case1 => exact divides_nil_iff
  | case2 number line rest hfence ih => rw [divides_cons_iff_of_prose hfence, ih]
  | case3 number line rest count hfence content =>
    rename_i ih
    rw [divides_cons_iff_of_fence hfence rfl]
    constructor
    · rintro ⟨later, rfl, hlater⟩
      exact congrArg _ (ih.mp hlater)
    · rintro rfl
      exact ⟨_, rfl, ih.mpr rfl⟩

end Places

theorem stripComment_withoutReturn (line : List Char) :
    InlineTest.stripComment (Text.withoutReturn line) = InlineTest.stripComment line := by
  obtain hline | hline := Text.eq_withoutReturn_append line
  · rw [← hline]
  · have blank : ∀ c ∈ ['\r'], Text.isWhitespace c = true := List.all_eq_true.mp (by decide)
    have stop : (Text.withoutReturn line ++ ['\r']).takeWhile (· != ';') =
        (Text.withoutReturn line).takeWhile (· != ';') ∨
      (Text.withoutReturn line ++ ['\r']).takeWhile (· != ';') =
        (Text.withoutReturn line).takeWhile (· != ';') ++ ['\r'] := by
      rw [List.takeWhile_append]
      split
      · rename_i hwhole
        rw [(List.takeWhile_prefix _).eq_of_length hwhole]
        exact .inr rfl
      · exact .inl rfl
    conv_rhs => rw [hline]
    unfold InlineTest.stripComment
    obtain same | same := stop
    · rw [same]
    · rw [same, Text.trim_append_blank blank]

theorem Block.test?_eq_some_iff {b : Block} {t : TestSection} : b.test? = some t ↔
    b.kind = .test ∧
      t = { content := unlines b.content, startLine := b.startLine, endLine := b.endLine } := by
  unfold test?
  split
  · rename_i htest
    simp [htest, eq_comm]
  · rename_i htest
    simp [htest]

theorem Block.Spans.concerns {lines : List (List Char)} {b : Block} (h : b.Spans 1 lines)
    (hnewline : ∀ line ∈ lines, '\n' ∉ line) {t : TestSection} (ht : b.test? = some t)
    {fault : InlineTest.AssertionFault} (hfault : InlineTest.Block.parse t = .error fault) :
    b.Encloses (t.startLine + fault.line) ∧
      (∃ line, lines[t.startLine + fault.line - 1]? = some line ∧ fault.Concerns line) ∧
      ∀ number line, t.startLine < number → number < t.startLine + fault.line →
        lines[number - 1]? = some line → InlineTest.Readable line := by
  obtain ⟨-, rfl⟩ := test?_eq_some_iff.mp ht
  obtain @⟨front, fence, rest, count, info, rfl, start, -, -, -, fills⟩ := h
  obtain ⟨content, -⟩ := fills_iff.mp fills
  have inside : ∀ line ∈ b.content, '\n' ∉ line := fun line hline => by
    rw [content] at hline
    exact hnewline line (List.mem_append_right _
      (List.mem_cons_of_mem _ ((List.takeWhile_prefix _).subset hline)))
  have same : (b.content.map Text.withoutReturn).map InlineTest.stripComment =
      b.content.map InlineTest.stripComment := by
    rw [List.map_map]
    exact List.map_congr_left fun line _ => stripComment_withoutReturn line
  have refused : InlineTest.parseLines 1 b.content = .error fault := by
    unfold InlineTest.Block.parse at hfault
    obtain hlines | ⟨as, -, hdone⟩ := bind_eq_error_iff.mp hfault
    · rw [lines_unlines_eq_map inside, InlineTest.parseLines_congr same] at hlines
      exact hlines
    · cases hdone
  obtain ⟨before, line, after, hblock, hbefore, hnumber, hconcerns⟩ :=
    InlineTest.exists_refused_of_parseLines refused
  obtain ⟨tail, rfl⟩ : b.content <+: rest := by
    rw [content]
    exact List.takeWhile_prefix _
  have here (i : Nat) (hi : i < b.content.length) :
      (front ++ fence :: (b.content ++ tail))[b.startLine + i]? = b.content[i]? := by
    rw [start, Nat.add_comm 1, Nat.add_assoc, List.getElem?_append_right (Nat.le_add_right _ _),
      Nat.add_sub_cancel_left, Nat.add_comm 1, List.getElem?_cons_succ,
      List.getElem?_append_left hi]
  have length : b.content.length = before.length + (after.length + 1) := by
    rw [hblock, List.length_append, List.length_cons]
  simp only [Encloses]
  rw [hnumber]
  refine ⟨⟨by omega, by omega⟩, ⟨line, ?_, hconcerns⟩, fun number l hfirst hlast hl => ?_⟩
  · rw [show b.startLine + (1 + before.length) - 1 = b.startLine + before.length by omega,
      here _ (by omega), hblock]
    simp
  · obtain ⟨i, rfl⟩ := Nat.exists_eq_add_of_lt hfirst
    rw [Nat.add_sub_cancel, here i (by omega), hblock, List.getElem?_append_left (by omega)] at hl
    exact hbefore l (List.mem_of_getElem? hl)

/-- Extraction keeps every line in its place. There is one way to divide a document into blocks.
The program has a line for every line of the document, which is shown if it is inside of a program
block; the test blocks are the blocks with their tag; and the first line of a test block that is no
assertion is where the fault says. -/
theorem extraction_exact {path : String} (h : isDocument path = true) (content : String) :
    let lines := Text.lines content.toList
    let source := Source.ofFile path content
    ∃ bs : List Block, (∀ bs', Divides 1 lines bs' ↔ bs' = bs) ∧
      (∀ b ∈ bs, b.endLine = min (b.startLine + b.content.length + 1) lines.length) ∧
      (∀ line ∈ lines, '\n' ∉ line) ∧
      source.program = unlines (shownLines bs 1 lines) ∧
      source.tests = bs.filterMap Block.test? ∧
      ∀ b ∈ bs, ∀ t, b.test? = some t → ∀ fault, InlineTest.Block.parse t = .error fault →
        b.Encloses (t.startLine + fault.line) ∧
        (∃ line, lines[t.startLine + fault.line - 1]? = some line ∧ fault.Concerns line) ∧
        ∀ number line, t.startLine < number → number < t.startLine + fault.line →
          lines[number - 1]? = some line → InlineTest.Readable line := by
  intro lines source
  have hsource : source = { program := (read content).1, tests := (read content).2, path } :=
    if_pos h
  have divides : Divides 1 lines (blocks lines) := divides_iff.mpr rfl
  have hnewline : ∀ line ∈ lines, '\n' ∉ line := Text.newline_not_mem_lines _
  refine ⟨blocks lines, fun bs' => divides_iff, fun b hb => ?_, hnewline, ?_, ?_, fun b hb => ?_⟩
  · have := (divides.spans b hb).endLine_eq
    omega
  · rw [hsource, read_eq]
  · rw [hsource, read_eq]
  · exact fun t ht fault => (divides.spans b hb).concerns hnewline ht

theorem extraction_of_unclosed :
    let content := "```bus8\r\nhlt\r\n```\r\n````bus8test\r\n; none\r\n```\n"
    isDocument "notes.md" = true ∧ (Source.ofFile "notes.md" content).program = "\nhlt\n\n\n\n\n" ∧
      ∃ bs, Divides 1 (Text.lines content.toList) bs ∧
        ∃ b ∈ bs, b.startLine = 4 ∧ b.endLine = 6 ∧ b.Encloses 6 ∧
          ∃ fault : InlineTest.AssertionFault, fault.Concerns "```".toList := by
  intro content
  have document : isDocument "notes.md" = true := by decide +kernel
  obtain ⟨bs, unique, -, -, -, tests, faults⟩ := extraction_exact document content
  let t : TestSection := { content := "; none\n```\n", startLine := 4, endLine := 6 }
  have only : (Source.ofFile "notes.md" content).tests = [t] := by decide +kernel
  have ⟨b, hb, ht⟩ : ∃ b ∈ bs, b.test? = some t := by
    rw [← List.mem_filterMap, ← tests, only]
    exact List.mem_singleton_self t
  have refused : InlineTest.Block.parse t =
      .error { line := 2, text := "```", cause := .noComparison } := by decide +kernel
  obtain ⟨inside, ⟨line, hline, concerns⟩, -⟩ := faults b hb t ht _ refused
  obtain ⟨-, ht⟩ := Block.test?_eq_some_iff.mp ht
  have sixth : (Text.lines content.toList)[5]? = some "```".toList := by decide +kernel
  obtain rfl : "```".toList = line := Option.some.inj (sixth.symm.trans hline)
  exact ⟨document, by decide +kernel, bs, (unique bs).mpr rfl, b, hb,
    (congrArg TestSection.startLine ht).symm, (congrArg TestSection.endLine ht).symm, inside, _,
    concerns⟩

end Literate

end BusMachine
