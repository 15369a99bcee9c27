import BusMachine.Text.Case
import Mathlib.Data.List.Forall2

/-!
Texts that differ in case only. Case is a matter of the 26 basic Latin letters: two texts have the
same form in lower case exactly if they are equally long and their characters are the same, or the
two cases of one such letter, place by place.
-/

namespace BusMachine.Text

variable {c d : Char} {s t : String}

/-- The same character, or the two cases of a basic Latin letter, whose codes are 32 apart. -/
inductive SameLetter (c d : Char) : Prop
  | same (h : c = d)
  | lowered (upper : c.isUpper = true) (h : d.toNat = c.toNat + 32)
  | raised (upper : d.isUpper = true) (h : c.toNat = d.toNat + 32)

def EqualUpToCase (s t : String) : Prop := List.Forall₂ SameLetter s.toList t.toList

theorem isUpper_iff_toNat : c.isUpper = true ↔ 65 ≤ c.toNat ∧ c.toNat ≤ 90 := by
  unfold Char.isUpper
  rw [decide_eq_true_iff]
  exact and_congr UInt32.le_iff_toNat_le UInt32.le_iff_toNat_le

theorem toLower_of_not_isUpper (h : ¬c.isUpper = true) : c.toLower = c :=
  dif_neg (of_decide_eq_false (eq_false_of_ne_true h))

theorem toNat_toLower (c : Char) :
    c.toLower.toNat = if c.isUpper then c.toNat + 32 else c.toNat := by
  by_cases h : c.isUpper = true
  · obtain ⟨-, hle⟩ := isUpper_iff_toNat.mp h
    have lowered : c.toLower.toNat = (c.val + ('a'.val - 'A'.val)).toNat :=
      congrArg Char.toNat (dif_pos (of_decide_eq_true h))
    rw [if_pos h, lowered]
    -- the sum of codes is one of 32-bit numbers
    show (c.toNat + 32) % 2 ^ 32 = c.toNat + 32
    exact Nat.mod_eq_of_lt (by omega)
  · rw [if_neg h, toLower_of_not_isUpper h]

theorem not_isUpper_of_lowered (upper : c.isUpper = true) (h : d.toNat = c.toNat + 32) :
    ¬d.isUpper = true := by
  intro hd
  have hc := isUpper_iff_toNat.mp upper
  have hd := isUpper_iff_toNat.mp hd
  omega

theorem toLower_eq_toLower_iff : c.toLower = d.toLower ↔ SameLetter c d := by
  rw [← Char.toNat_inj, toNat_toLower, toNat_toLower]
  constructor
  · intro h
    by_cases hc : c.isUpper = true <;> by_cases hd : d.isUpper = true
    · rw [if_pos hc, if_pos hd] at h
      exact .same (Char.toNat_inj.mp (Nat.add_right_cancel h))
    · rw [if_pos hc, if_neg hd] at h
      exact .lowered hc h.symm
    · rw [if_neg hc, if_pos hd] at h
      exact .raised hd h
    · rw [if_neg hc, if_neg hd] at h
      exact .same (Char.toNat_inj.mp h)
  · rintro (rfl | ⟨upper, h⟩ | ⟨upper, h⟩)
    · rfl
    · rw [if_pos upper, if_neg (not_isUpper_of_lowered upper h), h]
    · rw [if_pos upper, if_neg (not_isUpper_of_lowered upper h), h]

theorem lower_eq_lower_iff : lower s = lower t ↔ EqualUpToCase s t := by
  unfold lower EqualUpToCase
  rw [String.ofList_inj, ← List.forall₂_eq_eq_eq, List.forall₂_map_left_iff,
    List.forall₂_map_right_iff]
  simp only [toLower_eq_toLower_iff]

theorem EqualUpToCase.symm (h : EqualUpToCase s t) : EqualUpToCase t s :=
  lower_eq_lower_iff.mp (lower_eq_lower_iff.mpr h).symm

theorem EqualUpToCase.trans {u : String} (h : EqualUpToCase s t) (h' : EqualUpToCase t u) :
    EqualUpToCase s u :=
  lower_eq_lower_iff.mp ((lower_eq_lower_iff.mpr h).trans (lower_eq_lower_iff.mpr h'))

instance : Decidable (EqualUpToCase s t) := decidable_of_iff _ lower_eq_lower_iff

end BusMachine.Text
