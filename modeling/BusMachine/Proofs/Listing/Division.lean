import BusMachine.Proofs.Assembly.Source
import BusMachine.Proofs.Listing.Rows
import BusMachine.Proofs.Standard.Architecture

/-!
Where a listing passes from code to data. The annotations keep the end of the code as a word. Code
that goes up to the last address ends behind every word, and its last cell is listed as data.
-/

namespace BusMachine

namespace Listing

/-- The cells from a border on are listed as data, and no others. -/
def Divides (l : Listing) (memory : List Word) (border : Nat) : Prop :=
  ∀ k row, (l.rows memory)[k]? = some row →
    row.address = k ∧ (row.meaning.isData = true ↔ border ≤ k)

variable {l : Listing} {memory : List Word}

theorem divides_codeEnd {annotations : Annotations} (h : l.annotations = some annotations)
    (memory : List Word) : l.Divides memory annotations.codeEnd := by
  intro k row hrow
  rw [getElem?_rows h] at hrow
  obtain ⟨value, -, rfl⟩ := Option.map_eq_some_iff.mp hrow
  exact ⟨rfl, isData_meaning k value _⟩

theorem Divides.exists_row {border : Nat} (h : l.Divides memory border)
    (hlt : border < memory.length) :
    ∃ row, (l.rows memory)[border]? = some row ∧ row.meaning.isData = true := by
  rw [← l.length_rows] at hlt
  have hrow := List.getElem?_eq_getElem hlt
  exact ⟨_, hrow, (h border _ hrow).2.mpr (Nat.le_refl border)⟩

theorem Divides.le {first second : Nat} (hfirst : l.Divides memory first)
    (hsecond : l.Divides memory second) (hlt : first < memory.length) : second ≤ first := by
  obtain ⟨row, hrow, hdata⟩ := hfirst.exists_row hlt
  exact (hsecond first row hrow).2.mp hdata

end Listing

namespace Assembly

def Layout.listing (l : Layout) (instructions : InstructionSet) : Listing :=
  { instructions, annotations := some l.annotations }

section Images

variable {p : Program}

theorem codeEnd_annotations (p : Program) :
    (Layout.ofProgram p).annotations.codeEnd = min p.codeEnd maxWord := rfl

theorem codeEnd_le_maxWord_iff (h : p.imageLength ≤ addressSpace) :
    p.codeEnd ≤ maxWord ↔ p.code.length ≠ maxWord := by
  have bound := p.codeEnd_le_imageLength
  unfold Program.codeEnd maxWord addressSpace at *
  omega

theorem length_of_resolve {wordSize : Nat} {words : Array Word}
    (h : (Layout.ofProgram p).resolve p wordSize = .ok words) :
    words.toList.length = p.imageLength := by
  rw [← resolve_min] at h
  rw [Array.length_toList]
  exact (Layout.isImage_of_resolve (Nat.min_le_right _ _) h).size

theorem divides_annotations (p : Program) (instructions : InstructionSet) (memory : List Word) :
    ((Layout.ofProgram p).listing instructions).Divides memory (min p.codeEnd maxWord) := by
  rw [← codeEnd_annotations]
  exact Listing.divides_codeEnd rfl memory

theorem divides_codeEnd_iff {instructions : InstructionSet} {memory : List Word}
    (h : p.codeEnd ≤ memory.length) :
    ((Layout.ofProgram p).listing instructions).Divides memory p.codeEnd ↔
      p.codeEnd ≤ maxWord := by
  have border := divides_annotations p instructions memory
  constructor
  · intro division
    by_contra hlt
    rw [Nat.min_eq_right (Nat.le_of_not_le hlt)] at border
    exact hlt (border.le division (Nat.lt_of_lt_of_le (Nat.lt_of_not_le hlt) h))
  · intro hle
    rwa [Nat.min_eq_left hle] at border

end Images

/-- The listing of an image tells code and data apart exactly if the code does not take up the whole
address space: otherwise its end is no word, and the annotations have the last address in place of
it. -/
theorem listing_divides_iff {p : Program} (hlength : p.imageLength ≤ addressSpace) {wordSize : Nat}
    {words : Array Word} (hresolve : (Layout.ofProgram p).resolve p wordSize = .ok words)
    (instructions : InstructionSet) :
    (((Layout.ofProgram p).listing instructions).rows words.toList).length = p.imageLength ∧
    ((Layout.ofProgram p).annotations.codeEnd = p.codeEnd ↔ p.code.length ≠ maxWord) ∧
    (((Layout.ofProgram p).listing instructions).Divides words.toList p.codeEnd ↔
      p.code.length ≠ maxWord) := by
  have length := length_of_resolve hresolve
  have bound := p.codeEnd_le_imageLength
  rw [← length] at bound
  refine ⟨?_, ?_, ?_⟩
  · rw [Listing.length_rows, length]
  · rw [codeEnd_annotations, ← codeEnd_le_maxWord_iff hlength]
    exact ⟨fun same => same ▸ Nat.min_le_right _ _, Nat.min_eq_left⟩
  · rw [divides_codeEnd_iff bound, codeEnd_le_maxWord_iff hlength]

def halting (n : Nat) (data : List DataBlock) : Program where
  code := List.replicate n { content := .word 2, position := ⟨1, 1⟩ }
  data

theorem exists_resolve_halting (n : Nat) (data : List DataBlock) :
    ∃ words, (Layout.ofProgram (halting n data)).resolve (halting n data) addressSpace =
      .ok words := by
  refine (Layout.resolve_isOk (Nat.le_refl _)).mpr fun word hword symbol hcontent => ?_
  rw [List.eq_of_mem_replicate hword] at hcontent
  cases hcontent

theorem codeEnd_halting (n : Nat) (data : List DataBlock) : (halting n data).codeEnd = n + 1 := by
  rw [Program.codeEnd, halting, List.length_replicate]

theorem imageLength_halting (n : Nat) : (halting n []).imageLength = n + 1 :=
  codeEnd_halting n []

theorem listing_divides_iff_string :
    ∃ words, (Layout.ofProgram (halting 1 [⟨.string 0, [97, 0], ⟨1, 5⟩⟩])).resolve
        (halting 1 [⟨.string 0, [97, 0], ⟨1, 5⟩⟩]) addressSpace = .ok words ∧
      ((Layout.ofProgram (halting 1 [⟨.string 0, [97, 0], ⟨1, 5⟩⟩])).listing
        Standard.instructionSet).Divides words.toList 2 := by
  obtain ⟨words, hwords⟩ := exists_resolve_halting 1 [⟨.string 0, [97, 0], ⟨1, 5⟩⟩]
  have ⟨_, _, divides⟩ := listing_divides_iff (by decide) hwords Standard.instructionSet
  exact ⟨words, hwords, divides.mpr (by decide)⟩

theorem listing_divides_not_filled :
    (halting maxWord []).imageLength = addressSpace ∧
    (Layout.ofProgram (halting maxWord [])).annotations.codeEnd ≠ (halting maxWord []).codeEnd ∧
    ∃ words row, (Layout.ofProgram (halting maxWord [])).resolve (halting maxWord []) addressSpace =
        .ok words ∧
      (((Layout.ofProgram (halting maxWord [])).listing
        Standard.instructionSet).rows words.toList)[maxWord]? = some row ∧
      row.meaning.isData = true ∧ maxWord < (halting maxWord []).codeEnd := by
  have behind : maxWord < (halting maxWord []).codeEnd := by
    rw [codeEnd_halting]
    exact Nat.lt_succ_self maxWord
  obtain ⟨words, hwords⟩ := exists_resolve_halting maxWord []
  have division := divides_annotations (halting maxWord []) Standard.instructionSet words.toList
  rw [Nat.min_eq_right (Nat.le_of_lt behind)] at division
  have inside : maxWord < words.toList.length := by
    rw [length_of_resolve hwords, imageLength_halting]
    exact Nat.lt_succ_self maxWord
  obtain ⟨row, hrow, hdata⟩ := division.exists_row inside
  refine ⟨imageLength_halting maxWord, ?_, words, row, hwords, hrow, hdata, behind⟩
  rw [codeEnd_annotations, Nat.min_eq_right (Nat.le_of_lt behind)]
  exact Nat.ne_of_lt behind

end Assembly

end BusMachine
