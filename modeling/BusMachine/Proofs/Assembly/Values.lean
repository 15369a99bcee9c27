import BusMachine.Proofs.Assembly.Words
import BusMachine.Proofs.Text.Character
import BusMachine.Proofs.Text.Numeral

/-!
Words that stand for a value: characters, mnemonics and numbers. A number is emitted as the word
nearest to the integer that its numeral writes, whatever the length of the numeral.
-/

namespace BusMachine

namespace Text

theorem toInt_neg_magnitude {m : Nat} (h : m ≤ maxMagnitude) :
    (Int64.ofNat m).toInt = m ∧ (-Int64.ofNat m).toInt = -m := by
  unfold maxMagnitude at h
  have exact : (Int64.ofNat m).toInt = m := Int64.toInt_ofNat_of_lt (by omega)
  refine ⟨exact, ?_⟩
  rw [Int64.toInt_neg, exact]
  exact Int.bmod_eq_of_le (by omega) (by omega)

end Text

theorem Word.nearest_natCast {wordSize m limit : Nat} (hpos : 0 < wordSize)
    (hle : wordSize ≤ addressSpace) (hlimit : maxWord ≤ limit) :
    (Word.nearest wordSize (min m limit : Nat) : Int) = max 0 (min (m : Int) (wordSize - 1)) := by
  have top : (wordSize : Int) - 1 = (wordSize - 1 : Nat) := by omega
  have small : wordSize - 1 ≤ maxWord := Nat.sub_le_sub_right hle 1
  rw [top, ← Nat.cast_min, Int.max_eq_right (Int.natCast_nonneg _)]
  unfold Word.nearest
  have below : wordSize - 1 ≤ limit := Nat.le_trans small hlimit
  rw [Int.toNat_natCast, Nat.min_assoc, Nat.min_eq_left small, Nat.min_assoc,
    Nat.min_eq_right below]

theorem Word.nearest_of_nonpos (wordSize : Nat) {z : Int} (h : z ≤ 0) :
    Word.nearest wordSize z = 0 := by
  unfold Word.nearest
  rw [Int.toNat_of_nonpos h, Nat.zero_min, Nat.zero_min]

theorem Word.nearest_reading {wordSize : Nat} (hpos : 0 < wordSize) (hle : wordSize ≤ addressSpace)
    (n : Text.Numeral) :
    (Word.nearest wordSize n.reading : Int) = max 0 (min n.value (wordSize - 1)) := by
  have hlimit : maxWord ≤ Text.maxMagnitude := by decide
  unfold Text.Numeral.reading Text.Numeral.value
  cases n.sign with
  | unsigned => exact nearest_natCast hpos hle hlimit
  | plus => exact nearest_natCast hpos hle hlimit
  | minus =>
    have nonpos : ∀ m : Nat, Text.Sign.minus.apply m ≤ 0 :=
      fun m => Int.neg_nonpos_of_nonneg (Int.natCast_nonneg m)
    rw [nearest_of_nonpos wordSize (nonpos _),
      Int.max_eq_left (Int.le_trans (Int.min_le_left _ _) (nonpos _))]
    rfl

namespace Assembly

variable {d : Dialect} {word : String}

theorem ofWord_eq (hcolon : word.toList.head? ≠ some ':') (hdollar : word.toList.head? ≠ some '$') :
    Meaning.ofWord d word = match Text.quotedChar? word.toList with
      | some c => .value (Word.ofChar d.wordSize c)
      | none => Meaning.ofPlain d word := by
  unfold Meaning.ofWord
  split
  · rename_i heq
    exact absurd (congrArg List.head? heq) hcolon
  · rename_i heq
    exact absurd (congrArg List.head? heq) hcolon
  · rename_i heq
    exact absurd (congrArg List.head? heq) hdollar
  · rfl

theorem ofWord_of_heads {n : Text.Numeral} {rest : List Char} (h : n.Heads word.toList rest)
    (hname : d.instructions.named? word = none) :
    Meaning.ofWord d word = .value (Word.nearest d.wordSize n.reading) := by
  rw [ofWord_eq (h.head?_ne (by decide)) (h.head?_ne (by decide)),
    Text.quotedChar?_eq_none (h.head?_ne (by decide))]
  unfold Meaning.ofPlain
  rw [hname, Text.Numeral.leadingInteger?_eq_some_iff.mpr ⟨n, rest, h, rfl⟩]

theorem addToken_of_value {value : Word} (h : Meaning.ofWord d word = .value value) (draft : Draft)
    (position : Position) : draft.addToken d ⟨.word word, position⟩ =
      .ok (draft.emit (.word value) position) := by
  unfold Draft.addToken Draft.addWord
  dsimp only
  rw [h]

open Text in
/-- Numbers mean what is written. A text has a leading integer exactly if it begins with a numeral,
and is an integer exactly if it is a numeral without a plus sign. What is read is the sign applied
to the magnitude or to `maxMagnitude`, whichever is less, so that both the magnitude and its
negation fit in 64 signed bits. Where a text is an integer, its leading integer is the same. A word
that begins with a numeral and is no mnemonic is emitted as the integer that is written, brought
between 0 and the largest word, which fits in 16 bits. -/
theorem numerals_exact :
    (∀ cs z, leadingInteger? cs = some z ↔
      ∃ n rest, Numeral.Heads n cs rest ∧ z = n.sign.apply (min n.magnitude maxMagnitude)) ∧
    (∀ cs z, integer? cs = some z ↔ ∃ n, Numeral.Heads n cs [] ∧ n.sign ≠ .plus ∧
      z = n.sign.apply (min n.magnitude maxMagnitude)) ∧
    (∀ cs z, integer? cs = some z → leadingInteger? cs = some z) ∧
    (∀ n : Numeral, let m := min n.magnitude maxMagnitude
      (Int64.ofNat m).toInt = m ∧ (-Int64.ofNat m).toInt = -m) ∧
    ∀ (d : Dialect) (word : String) (n : Numeral) (rest : List Char),
      2 ≤ d.wordSize → d.wordSize ≤ addressSpace → d.instructions.named? word = none →
      n.Heads word.toList rest → ∀ (draft : Draft) (position : Position), ∃ value : UInt16,
        (value.toNat : Int) = max 0 (min (n.sign.apply n.magnitude) (d.wordSize - 1)) ∧
        draft.addToken d ⟨.word word, position⟩ =
          .ok (draft.emit (.word value.toNat) position) := by
  refine ⟨fun cs z => Numeral.leadingInteger?_eq_some_iff,
    fun cs z => Numeral.integer?_eq_some_iff, fun cs z h => ?_,
    fun n => toInt_neg_magnitude (Nat.min_le_right _ _),
    fun d word n rest hW hle hname h draft position => ?_⟩
  · obtain ⟨n, hn, -, hz⟩ := Numeral.integer?_eq_some_iff.mp h
    exact Numeral.leadingInteger?_eq_some_iff.mpr ⟨n, [], hn, hz⟩
  · have pos : 0 < d.wordSize := by omega
    have small : Word.nearest d.wordSize n.reading < UInt16.size :=
      Nat.lt_of_lt_of_le (Word.nearest_lt pos _) hle
    refine ⟨UInt16.ofNat (Word.nearest d.wordSize n.reading), ?_, ?_⟩
    · rw [UInt16.toNat_ofNat_of_lt' small]
      exact Word.nearest_reading pos hle n
    · rw [UInt16.toNat_ofNat_of_lt' small]
      exact addToken_of_value (ofWord_of_heads h hname) draft position

def crowdedWord : String := "+0XfFfFfFfFfFfFfFfF0zero"

theorem numerals_exact_crowded : Text.leadingInteger? "-0x10".toList = some (-16) ∧
    ∃ value : UInt16, (value.toNat : Int) = 65535 ∧
      Draft.addToken { instructions := .empty, wordSize := 65536 } {}
        ⟨.word crowdedWord, .start⟩ = .ok (Draft.emit {} (.word value.toNat) .start) := by
  let n : Text.Numeral := ⟨.plus, .upper, "fFfFfFfFfFfFfFfF0".toList⟩
  have heads : n.Heads crowdedWord.toList "zero".toList :=
    ⟨by decide, ⟨by decide, List.all_iff_forall_prop.mp (by decide)⟩, by rintro c ⟨⟩; decide,
      fun h => nomatch h⟩
  obtain ⟨value, hvalue, added⟩ := numerals_exact.2.2.2.2
    { instructions := .empty, wordSize := 65536 } crowdedWord n "zero".toList (by decide)
    (by decide) (by decide) heads {} .start
  refine ⟨numerals_exact.2.2.1 _ _ (by decide), value, hvalue.trans ?_, added⟩
  decide

end Assembly

end BusMachine
