import BusMachine.Text.Whitespace
import Mathlib.Data.List.TakeWhile

/-!
White space around texts. What is trimmed neither begins nor ends with white space, such a text is
trimmed to itself, and white space around a text makes no difference to what it is trimmed to.
-/

namespace BusMachine.Text

/-- A text that neither begins nor ends with white space. -/
structure Trimmed (cs : List Char) : Prop where
  head : ∀ c ∈ cs.head?, isWhitespace c = false
  last : ∀ c ∈ cs.getLast?, isWhitespace c = false

variable {cs before after : List Char}

theorem trimStart_eq_self (h : ∀ c ∈ cs.head?, isWhitespace c = false) : trimStart cs = cs := by
  unfold trimStart
  cases cs with
  | nil => rfl
  | cons c rest => exact List.dropWhile_cons_of_neg (by simp [h c rfl])

theorem trimEnd_eq_self (h : ∀ c ∈ cs.getLast?, isWhitespace c = false) : trimEnd cs = cs := by
  have start : trimStart cs.reverse = cs.reverse :=
    trimStart_eq_self fun c hc => h c (by rwa [List.head?_reverse] at hc)
  unfold trimEnd
  exact (congrArg List.reverse start).trans (List.reverse_reverse cs)

theorem head?_trimStart : ∀ c ∈ (trimStart cs).head?, isWhitespace c = false := by
  intro c hc
  have stop := List.head?_dropWhile_not isWhitespace cs
  unfold trimStart at hc
  rw [Option.mem_def.mp hc] at stop
  exact stop

theorem getLast?_trimEnd : ∀ c ∈ (trimEnd cs).getLast?, isWhitespace c = false := by
  unfold trimEnd
  rw [List.getLast?_reverse]
  exact head?_trimStart

theorem trimEnd_append (cs : List Char) :
    ∃ blank, cs = trimEnd cs ++ blank ∧ ∀ c ∈ blank, isWhitespace c = true := by
  refine ⟨(cs.reverse.takeWhile isWhitespace).reverse, ?_, fun c hc => ?_⟩
  · rw [trimEnd, ← List.reverse_append, List.takeWhile_append_dropWhile, List.reverse_reverse]
  · exact List.all_eq_true.mp List.all_takeWhile c (List.mem_reverse.mp hc)

namespace Trimmed

theorem trim_eq (h : Trimmed cs) : trim cs = cs := by
  unfold trim
  rw [trimStart_eq_self h.head, trimEnd_eq_self h.last]

theorem of_forall (h : ∀ c ∈ cs, isWhitespace c = false) : Trimmed cs :=
  ⟨fun c hc => h c (List.mem_of_head? hc), fun c hc => h c (List.mem_of_getLast? hc)⟩

theorem append {right : List Char} (h : Trimmed cs) (hright : Trimmed right) (hne : cs ≠ [])
    (hne' : right ≠ []) (between : List Char) : Trimmed (cs ++ between ++ right) where
  head := by
    rw [List.append_assoc, List.head?_append, Option.or_of_isSome (by simpa using hne)]
    exact h.head
  last := by
    rw [List.getLast?_append, Option.or_of_isSome (by simpa using hne')]
    exact hright.last

end Trimmed

theorem trimmed_trim (cs : List Char) : Trimmed (trim cs) := by
  refine ⟨fun c hc => ?_, getLast?_trimEnd⟩
  obtain ⟨blank, hsplit, -⟩ := trimEnd_append (trimStart cs)
  have front : c ∈ (trimStart cs).head? := by
    rw [hsplit, List.head?_append]
    exact Option.mem_def.mpr (Option.or_eq_some_iff.mpr (.inl hc))
  exact head?_trimStart c front

theorem trim_isInfix (cs : List Char) : trim cs <:+: cs := by
  obtain ⟨blank, hsplit, -⟩ := trimEnd_append (trimStart cs)
  exact ⟨cs.takeWhile isWhitespace, blank, by
    rw [List.append_assoc, trim, ← hsplit, trimStart, List.takeWhile_append_dropWhile]⟩

theorem trimStart_append (h : ∀ c ∈ before, isWhitespace c = true) :
    trimStart (before ++ cs) = trimStart cs :=
  List.dropWhile_append_of_pos h

theorem trimEnd_append_of_blank (h : ∀ c ∈ after, isWhitespace c = true) :
    trimEnd (cs ++ after) = trimEnd cs := by
  unfold trimEnd
  rw [List.reverse_append,
    List.dropWhile_append_of_pos fun c hc => h c (List.mem_reverse.mp hc)]

theorem trim_blank_append (h : ∀ c ∈ before, isWhitespace c = true) :
    trim (before ++ cs) = trim cs := by
  unfold trim
  rw [trimStart_append h]

theorem trim_append_blank (h : ∀ c ∈ after, isWhitespace c = true) :
    trim (cs ++ after) = trim cs := by
  unfold trim trimStart
  rw [List.dropWhile_append]
  split
  · rename_i hblank
    rw [List.isEmpty_iff.mp hblank, List.dropWhile_eq_nil_iff.mpr h]
  · exact trimEnd_append_of_blank h

theorem trim_append (hbefore : ∀ c ∈ before, isWhitespace c = true)
    (hafter : ∀ c ∈ after, isWhitespace c = true) : trim (before ++ cs ++ after) = trim cs := by
  rw [trim_append_blank hafter, trim_blank_append hbefore]

section Blank

variable {blank : List Char} {a : Char}

theorem not_mem_of_blank (h : ∀ c ∈ blank, isWhitespace c = true)
    (ha : isWhitespace a = false) : a ∉ blank := by
  intro hmem
  rw [h a hmem] at ha
  cases ha

theorem getLast?_append_blank (h : ∀ c ∈ blank, isWhitespace c = true)
    (ha : isWhitespace a = false) (hlast : cs.getLast? ≠ some a) :
    (cs ++ blank).getLast? ≠ some a := by
  rw [List.getLast?_append]
  intro h'
  obtain hmem | ⟨-, hcs⟩ := Option.or_eq_some_iff.mp h'
  · exact not_mem_of_blank h ha (List.mem_of_getLast? hmem)
  · exact hlast hcs

theorem head?_blank_append (h : ∀ c ∈ blank, isWhitespace c = true)
    (ha : isWhitespace a = false) (hhead : cs.head? ≠ some a) :
    (blank ++ cs).head? ≠ some a := by
  rw [List.head?_append]
  intro h'
  obtain hmem | ⟨-, hcs⟩ := Option.or_eq_some_iff.mp h'
  · exact not_mem_of_blank h ha (List.mem_of_head? hmem)
  · exact hhead hcs

end Blank

end BusMachine.Text
