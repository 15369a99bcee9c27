import BusMachine.InlineTest.Assertion
import BusMachine.Proofs.Text.Trimming
import Mathlib.Data.List.Chain

/-!
The place of the comparison in a line. A line is divided at its first equality, or at its first
inequality if there is no equality, so what is written on both sides of a comparison must not have
one that is found before it.
-/

namespace BusMachine.InlineTest

variable {cs left right : List Char} {a b : Char}

/-- Nowhere in a text is `a` followed by `b`. -/
def Avoids (a b : Char) (cs : List Char) : Prop := cs.IsChain fun c d => ¬(c = a ∧ d = b)

instance (a b : Char) (cs : List Char) : Decidable (Avoids a b cs) :=
  inferInstanceAs (Decidable (cs.IsChain _))

theorem avoids_append : Avoids a b (left ++ right) ↔ Avoids a b left ∧ Avoids a b right ∧
    (left.getLast? = some a → right.head? ≠ some b) := by
  unfold Avoids
  rw [List.isChain_append]
  refine and_congr_right fun _ => and_congr_right fun _ => ⟨fun h ha hb => ?_, ?_⟩
  · exact h a ha b hb ⟨rfl, rfl⟩
  · rintro h c hc d hd ⟨rfl, rfl⟩
    exact h hc hd

theorem Avoids.of_part (h : Avoids a b cs) (hpart : left <:+: cs) : Avoids a b left :=
  List.IsChain.infix h hpart

theorem avoids_of_not_mem (h : b ∉ cs) : Avoids a b cs := by
  unfold Avoids
  induction cs with
  | nil => exact .nil
  | cons c cs ih =>
    obtain ⟨hc, hcs⟩ := not_or.mp (mt List.mem_cons.mpr h)
    refine List.isChain_cons.mpr ⟨fun d hd => ?_, ih hcs⟩
    rintro ⟨-, rfl⟩
    exact hcs (List.mem_of_head? hd)

theorem cutAt_eq_none_iff : cutAt a b cs = none ↔ Avoids a b cs := by
  fun_induction cutAt a b cs with
  | case1 c d rest h => simp [Avoids, h]
  | case2 c d rest h ih =>
    rw [Option.map_eq_none_iff, ih]
    unfold Avoids
    rw [List.isChain_cons_cons, and_iff_right h]
  | case3 cs h =>
    refine iff_of_true rfl ?_
    unfold Avoids
    match cs with
    | [] => exact .nil
    | [c] => exact .singleton c
    | c :: d :: rest => exact (h c d rest rfl).elim

theorem head?_append_singleton (left : List Char) (a : Char) (rest : List Char) :
    (left ++ [a]).head? = (left ++ a :: rest).head? := by
  cases left <;> rfl

theorem cutAt_append (h : Avoids a b (left ++ [a])) (right : List Char) :
    cutAt a b (left ++ a :: b :: right) = some (left, right) := by
  induction left with
  | nil => exact if_pos ⟨rfl, rfl⟩
  | cons c left ih =>
    obtain ⟨hne, h⟩ := List.isChain_cons.mp h
    have front := head?_append_singleton left a (b :: right)
    obtain ⟨d, rest, hrest⟩ : ∃ d rest, left ++ a :: b :: right = d :: rest :=
      List.exists_cons_of_ne_nil (by simp)
    rw [hrest] at front
    rw [List.cons_append, hrest, cutAt, if_neg (hne d front), ← hrest, ih h]
    rfl

theorem of_cutAt (h : cutAt a b cs = some (left, right)) :
    cs = left ++ a :: b :: right ∧ Avoids a b (left ++ [a]) := by
  fun_induction cutAt a b cs generalizing left with
  | case1 c d rest heq =>
    obtain ⟨rfl, rfl⟩ := heq
    cases h
    exact ⟨rfl, .singleton _⟩
  | case2 c d rest hne ih =>
    obtain ⟨⟨left, right⟩, hcut, heq⟩ := Option.map_eq_some_iff.mp h
    cases heq
    obtain ⟨hcs, havoids⟩ := ih hcut
    have front := head?_append_singleton left a (b :: right)
    rw [← hcs] at front
    refine ⟨congrArg (c :: ·) hcs, List.isChain_cons.mpr ⟨fun d' hd' => ?_, havoids⟩⟩
    obtain rfl : d = d' := Option.some.inj (front.symm.trans hd')
    exact hne
  | case3 cs hshort => cases h

theorem cutAt_eq_some_iff : cutAt a b cs = some (left, right) ↔
    cs = left ++ a :: b :: right ∧ Avoids a b (left ++ [a]) := by
  refine ⟨of_cutAt, ?_⟩
  rintro ⟨rfl, h⟩
  exact cutAt_append h right

namespace Comparison

/-- A line that has this comparison between `left` and `right` is divided there: no equality comes
sooner, and where this is an inequality there is no equality at all and no inequality sooner. -/
def Divides : Comparison → List Char → List Char → Prop
  | equal, left, _ => Avoids '=' '=' (left ++ ['='])
  | notEqual, left, right => Avoids '=' '=' (left ++ '!' :: '=' :: right) ∧
      Avoids '!' '=' (left ++ ['!'])

end Comparison

def comparison? (cs : List Char) : Option (List Char × Comparison × List Char) :=
  match cutAt '=' '=' cs with
  | some (left, right) => some (left, .equal, right)
  | none => (cutAt '!' '=' cs).map fun (left, right) => (left, .notEqual, right)

theorem comparison?_eq_some_iff {comparison : Comparison} :
    comparison? cs = some (left, comparison, right) ↔
      cs = left ++ comparison.text.toList ++ right ∧ comparison.Divides left right := by
  rw [List.append_assoc]
  cases comparison with
  | equal =>
    show _ ↔ cs = left ++ '=' :: '=' :: right ∧ Avoids '=' '=' (left ++ ['='])
    rw [← cutAt_eq_some_iff]
    unfold comparison?
    cases cutAt '=' '=' cs <;> simp [Prod.ext_iff]
  | notEqual =>
    show _ ↔ cs = left ++ '!' :: '=' :: right ∧ Avoids '=' '=' (left ++ '!' :: '=' :: right) ∧
      Avoids '!' '=' (left ++ ['!'])
    have whole : (cs = left ++ '!' :: '=' :: right ∧ Avoids '=' '=' (left ++ '!' :: '=' :: right) ∧
        Avoids '!' '=' (left ++ ['!'])) ↔
        cutAt '=' '=' cs = none ∧ cutAt '!' '=' cs = some (left, right) := by
      rw [cutAt_eq_none_iff, cutAt_eq_some_iff, and_left_comm (a := Avoids '=' '=' cs)]
      exact and_congr_right fun hcs => by rw [hcs]
    rw [whole]
    unfold comparison?
    cases cutAt '=' '=' cs <;> simp [Prod.ext_iff]

theorem splitComparison_eq_ok_iff {comparison : Comparison} {subject value : List Char} :
    splitComparison cs = .ok (subject, comparison, value) ↔
      ∃ left right, cs = left ++ comparison.text.toList ++ right ∧ comparison.Divides left right ∧
        Text.trim left = subject ∧ Text.trim right = value ∧ subject ≠ [] ∧ value ≠ [] := by
  have unfolded : splitComparison cs = match comparison? cs with
      | none => .error .noComparison
      | some (left, found, right) =>
        if (Text.trim left).isEmpty then .error .noSubject
        else if (Text.trim right).isEmpty then .error .noValue
        else .ok (Text.trim left, found, Text.trim right) := rfl
  rw [unfolded]
  constructor
  · intro h
    cases hcut : comparison? cs with
    | none =>
      rw [hcut] at h
      cases h
    | some parts =>
      obtain ⟨left, found, right⟩ := parts
      rw [hcut] at h
      dsimp only at h
      split at h
      · cases h
      · rename_i hsubject
        split at h
        · cases h
        · rename_i hvalue
          cases h
          obtain ⟨hcs, divides⟩ := comparison?_eq_some_iff.mp hcut
          exact ⟨left, right, hcs, divides, rfl, rfl, mt List.isEmpty_iff.mpr hsubject,
            mt List.isEmpty_iff.mpr hvalue⟩
  · rintro ⟨left, right, hcs, divides, rfl, rfl, hsubject, hvalue⟩
    rw [comparison?_eq_some_iff.mpr ⟨hcs, divides⟩]
    dsimp only
    rw [if_neg (mt List.isEmpty_iff.mp hsubject), if_neg (mt List.isEmpty_iff.mp hvalue)]

section Spacing

variable {before behind subject value : List Char}

theorem avoids_append_blank (h : ∀ c ∈ before, Text.isWhitespace c = true)
    (hb : Text.isWhitespace b = false) (havoids : Avoids a b cs) : Avoids a b (cs ++ before) := by
  have blank := Text.not_mem_of_blank h hb
  exact avoids_append.mpr ⟨havoids, avoids_of_not_mem blank,
    fun _ hhead => blank (List.mem_of_head? hhead)⟩

theorem avoids_blank_append (h : ∀ c ∈ before, Text.isWhitespace c = true)
    (ha : Text.isWhitespace a = false) (hb : Text.isWhitespace b = false)
    (havoids : Avoids a b cs) : Avoids a b (before ++ cs) :=
  avoids_append.mpr ⟨avoids_of_not_mem (Text.not_mem_of_blank h hb), havoids,
    fun hlast => absurd (List.mem_of_getLast? hlast) (Text.not_mem_of_blank h ha)⟩

namespace Comparison

/-- No other comparison is found in a line that has this one between two texts. An equality may be
part of what is behind it. -/
def Clear : Comparison → List Char → List Char → Prop
  | equal, subject, _ => Avoids '=' '=' subject
  | notEqual, subject, value =>
    Avoids '=' '=' subject ∧ Avoids '!' '=' subject ∧ Avoids '=' '=' value

instance (comparison : Comparison) (subject value : List Char) :
    Decidable (comparison.Clear subject value) :=
  match comparison with
  | equal => inferInstanceAs (Decidable (Avoids _ _ _))
  | notEqual => inferInstanceAs (Decidable (_ ∧ _ ∧ _))

theorem divides_of_clear {comparison : Comparison} (clear : comparison.Clear subject value)
    (hsubject : subject.getLast? ≠ some '=') (hvalue : value.head? ≠ some '=')
    (hbefore : ∀ c ∈ before, Text.isWhitespace c = true)
    (hbehind : ∀ c ∈ behind, Text.isWhitespace c = true) :
    comparison.Divides (subject ++ before) (behind ++ value) := by
  have last := Text.getLast?_append_blank hbefore (by decide) hsubject
  have front := Text.head?_blank_append hbehind (by decide) hvalue
  cases comparison with
  | equal =>
    have left := avoids_append_blank hbefore (by decide) clear
    exact avoids_append.mpr ⟨left, .singleton _, fun h => absurd h last⟩
  | notEqual =>
    obtain ⟨hequal, hnotEqual, hright⟩ := clear
    have left := avoids_append_blank hbefore (by decide) hequal
    have right := avoids_blank_append hbehind (by decide) (by decide) hright
    have sign : Avoids '=' '=' (['!', '='] ++ (behind ++ value)) :=
      avoids_append.mpr ⟨by decide, right, fun _ => front⟩
    refine ⟨avoids_append.mpr ⟨left, sign, fun h => absurd h last⟩, ?_⟩
    exact avoids_append.mpr ⟨avoids_append_blank hbefore (by decide) hnotEqual, .singleton _,
      fun _ => by decide⟩

theorem clear_of_divides {comparison : Comparison} {left right : List Char}
    (h : comparison.Divides left right) : comparison.Clear left right := by
  cases comparison with
  | equal => exact (avoids_append.mp h).1
  | notEqual =>
    obtain ⟨hequal, hnotEqual⟩ := h
    obtain ⟨hleft, hright, -⟩ := avoids_append.mp hequal
    exact ⟨hleft, (avoids_append.mp hnotEqual).1, hright.of_part ⟨['!', '='], [], by simp⟩⟩

end Comparison

end Spacing

end BusMachine.InlineTest
