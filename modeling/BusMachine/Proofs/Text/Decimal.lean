import BusMachine.Proofs.Text.Numeral
import BusMachine.Proofs.Text.Trimming
import BusMachine.Proofs.Text.Case

/-!
Decimal texts of numbers: reading one gives back the number that was written, and white space around
it or the case of letters make no difference to it.
-/

namespace BusMachine.Text

theorem hexDigit?_of_isDigit {c : Char} (h : c.isDigit = true) :
    hexDigit? c = some (c.toNat - '0'.toNat) :=
  if_pos (Char.isDigit_iff_toNat.mp h)

theorem isDigit_of_isDigit {c : Char} (h : c.isDigit = true) : isDigit c = true := by
  obtain ⟨hlow, hhigh⟩ := Char.isDigit_iff_toNat.mp h
  exact Bool.and_eq_true_iff.mpr ⟨decide_eq_true hlow, decide_eq_true hhigh⟩

theorem not_isWhitespace_of_isDigit {c : Char} (h : c.isDigit = true) : isWhitespace c = false := by
  obtain ⟨hlow, hhigh⟩ := Char.isDigit_iff_toNat.mp h
  have low : 48 ≤ c.toNat := hlow
  have high : c.toNat ≤ 57 := hhigh
  simp only [isWhitespace, Bool.or_eq_false_iff, Bool.and_eq_false_iff, decide_eq_false_iff_not,
    beq_eq_false_iff_ne]
  omega

theorem digitValue_of_isDigit {c : Char} (h : c.isDigit = true) :
    digitValue c < 10 ∧ digitValue c = c.toNat - '0'.toNat := by
  have decimal : digitValue c < 10 := by
    simpa only [isDigit_eq, decide_eq_true_iff] using isDigit_of_isDigit h
  have value := hexDigit?_of_isDigit h
  rw [hexDigit?_eq, if_pos (Nat.lt_trans decimal (by decide))] at value
  exact ⟨decimal, Option.some.inj value⟩

theorem number_decimal {digits : List Char} (h : ∀ c ∈ digits, c.isDigit = true) :
    Radix.decimal.number digits = Nat.ofDigitChars 10 digits 0 := by
  induction digits using List.reverseRecOn with
  | nil => rfl
  | append_singleton digits c ih =>
    have earlier := ih fun d hd => h d (List.mem_append_left _ hd)
    have last := (digitValue_of_isDigit (h c (by simp))).2
    rw [Radix.number_concat, earlier, last, Nat.ofDigitChars_append, Nat.ofDigitChars_cons,
      Nat.ofDigitChars_nil, Nat.mul_comm]
    rfl

theorem digitsUpTo_decimal {digits : List Char} (h : ∀ c ∈ digits, c.isDigit = true) (limit : Nat) :
    digitsUpTo limit 10 digits = min (Nat.ofDigitChars 10 digits 0) limit := by
  have below : ∀ c ∈ digits, digitValue c < Radix.decimal.base :=
    fun c hc => (digitValue_of_isDigit (h c hc)).1
  rw [← number_decimal h]
  exact Radix.digitsUpTo_eq below limit

theorem isDigit_of_mem_toDigits {n : Nat} {c : Char} (h : c ∈ Nat.toDigits 10 n) :
    c.isDigit = true :=
  Nat.isDigit_of_mem_toDigits (by decide) (Nat.le_refl 10) h

theorem natural?_toDigits {limit n : Nat} (h : n ≤ limit) :
    natural? limit (Nat.toDigits 10 n) = some n := by
  have digits : ∀ c ∈ Nat.toDigits 10 n, c.isDigit = true := fun c hc => isDigit_of_mem_toDigits hc
  have value := digitsUpTo_decimal digits (limit + 1)
  rw [Nat.ofDigitChars_ten_toDigits, Nat.min_eq_left (Nat.le_succ_of_le h)] at value
  have all : (Nat.toDigits 10 n).all isDigit = true :=
    List.all_eq_true.mpr fun c hc => isDigit_of_isDigit (digits c hc)
  have unsigned : ∀ rest, Nat.toDigits 10 n ≠ '+' :: rest := by
    intro rest hrest
    have plus := digits '+' (hrest ▸ List.mem_cons_self)
    cases plus
  unfold natural?
  split
  · rename_i rest hrest
    exact absurd hrest (unsigned rest)
  · dsimp only
    rw [value, all, if_neg (by simp [Nat.toDigits_ne_nil]), if_pos h]

theorem natural?_trim_toString {limit n : Nat} (h : n ≤ limit) :
    natural? limit (trim (toString n).toList) = some n := by
  have trimmed : Trimmed (Nat.toDigits 10 n) :=
    .of_forall fun c hc => not_isWhitespace_of_isDigit (isDigit_of_mem_toDigits hc)
  rw [Nat.toString_eq_ofList_toDigits, String.toList_ofList, trimmed.trim_eq, natural?_toDigits h]

def Numeral.ofInt (z : Int) : Numeral where
  sign := if z < 0 then .minus else .unsigned
  mark := .unmarked
  digits := Nat.toDigits 10 z.natAbs

namespace Numeral

theorem text_ofInt (z : Int) : (ofInt z).text = (toString z).toList := by
  unfold ofInt text
  rw [Int.toString_eq_repr, Int.repr_eq_if]
  by_cases h : z < 0
  · have abs : (-z).toNat = z.natAbs := by omega
    rw [if_pos h, if_neg (Int.not_le.mpr h), abs, Nat.repr_eq_ofList_toDigits]
    simp [Sign.text, Mark.text]
  · have abs : z.toNat = z.natAbs := by omega
    rw [if_neg h, if_pos (Int.not_lt.mp h), abs, Nat.repr_eq_ofList_toDigits]
    simp [Sign.text, Mark.text]

theorem wellFormed_ofInt (z : Int) : (ofInt z).WellFormed :=
  ⟨Nat.toDigits_ne_nil, fun _ hc => (digitValue_of_isDigit (isDigit_of_mem_toDigits hc)).1⟩

theorem value_ofInt (z : Int) : (ofInt z).value = z := by
  have magnitude : (ofInt z).magnitude = z.natAbs :=
    (number_decimal fun c hc => isDigit_of_mem_toDigits hc).trans Nat.ofDigitChars_ten_toDigits
  unfold value
  rw [magnitude]
  unfold ofInt
  dsimp only
  split <;> simp only [Sign.apply] <;> omega

end Numeral

theorem integer?_toString {z : Int} (h : z.natAbs ≤ maxMagnitude) :
    integer? (toString z).toList = some z := by
  have value := Numeral.value_ofInt z
  have heads := (Numeral.wellFormed_ofInt z).heads
  rw [Numeral.text_ofInt] at heads
  refine Numeral.integer?_eq_some_iff.mpr ⟨.ofInt z, heads, ?_, ?_⟩
  · unfold Numeral.ofInt
    split <;> exact Sign.noConfusion
  · rw [Numeral.reading_eq_value (by rwa [value]), value]

theorem toLower_of_isDigit {c : Char} (h : c.isDigit = true) : c.toLower = c := by
  refine toLower_of_not_isUpper fun hupper => ?_
  have upper := (isUpper_iff_toNat.mp hupper).1
  have digit : c.toNat ≤ 57 := (Char.isDigit_iff_toNat.mp h).2
  omega

theorem not_sameLetters_toString {name : String} {c : Char} (hmem : c ∈ (lower name).toList)
    (hletter : c.isDigit = false) (n : Nat) : sameLetters (toString n) name = false := by
  refine beq_false_of_ne fun same => ?_
  rw [← same, lower, String.toList_ofList, Nat.toString_eq_ofList_toDigits, String.toList_ofList]
    at hmem
  obtain ⟨digit, hdigit, rfl⟩ := List.mem_map.mp hmem
  have isDigit := isDigit_of_mem_toDigits hdigit
  rw [toLower_of_isDigit isDigit, isDigit] at hletter
  cases hletter

end BusMachine.Text
