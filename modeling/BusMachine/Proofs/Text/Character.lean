import BusMachine.Text.Character

/-!
Characters and how they are written. The ASCII characters are looked at one by one where a property
is decided for each of them, and those beyond them at once.
-/

namespace BusMachine.Text

theorem ascii_induction {P : Char → Prop} (ascii : ∀ n : Fin 128, P (Char.ofNat n))
    (beyond : ∀ c, 128 ≤ c.toNat → P c) (c : Char) : P c := by
  by_cases h : c.toNat < 128
  · have small := ascii ⟨c.toNat, h⟩
    rwa [Char.ofNat_toNat] at small
  · exact beyond c (Nat.not_lt.mp h)

theorem not_le_of_beyond {c d : Char} (h : 128 ≤ c.toNat) (hd : d.toNat < 128) : ¬c ≤ d := by
  intro hle
  have small : c.toNat ≤ d.toNat := hle
  omega

theorem isAlphanum_of_beyond {c : Char} (h : 128 ≤ c.toNat) : c.isAlphanum = false := by
  have above : ∀ d : Char, d.toNat < 128 → ¬c.val ≤ d.val := fun d hd => not_le_of_beyond h hd
  have upper : c.isUpper = false := decide_eq_false fun hc => above 'Z' (by decide) hc.2
  have lower : c.isLower = false :=
    Bool.and_eq_false_iff.mpr (.inr (decide_eq_false (above 'z' (by decide))))
  have digit : c.isDigit = false :=
    Bool.and_eq_false_iff.mpr (.inr (decide_eq_false (above '9' (by decide))))
  show (c.isUpper || c.isLower || c.isDigit) = false
  rw [upper, lower, digit]
  rfl

variable {cs : List Char} {c : Char}

theorem quotedChar?_eq_none (h : cs.head? ≠ some '\'') : quotedChar? cs = none := by
  unfold quotedChar?
  split
  · exact absurd rfl h
  · exact absurd rfl h
  · rfl

theorem quotedChar?_map_toLower (h : quotedChar? cs = some c) :
    quotedChar? (cs.map Char.toLower) = some c.toLower := by
  unfold quotedChar? at h
  split at h
  · cases h
    rfl
  · cases h
    rfl
  · cases h

end BusMachine.Text
