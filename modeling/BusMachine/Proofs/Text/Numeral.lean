import BusMachine.Proofs.Text.Character
import BusMachine.Text.Numeral
import BusMachine.Text.Whitespace
import Mathlib.Data.Bool.AllAny
import Mathlib.Data.List.Induction
import Mathlib.Data.List.TakeWhile
import Mathlib.Data.Nat.Digits.Defs

/-!
Written integers. A numeral is a sign, a mark of its radix and digits, and a text begins with one in
at most one way. Reading a text gives the number that its numeral stands for, with a magnitude that
stops at `maxMagnitude`, and gives none exactly if the text does not begin with a numeral.
-/

namespace BusMachine.Text

def digitRow : List Char :=
  ['0', '1', '2', '3', '4', '5', '6', '7', '8', '9', 'a', 'b', 'c', 'd', 'e', 'f']

def digitValue (c : Char) : Nat := digitRow.idxOf c.toLower

theorem digitValue_of_beyond {c : Char} (h : 128 ≤ c.toNat) : digitValue c = 16 := by
  have same : c.toLower = c := dif_neg fun hupper => not_le_of_beyond h (by decide) hupper.2
  refine List.idxOf_eq_length fun hmem => ?_
  rw [same] at hmem
  have bound : ∀ d ∈ digitRow, d.toNat < 128 := List.all_iff_forall_prop.mp (by decide)
  exact absurd (bound c hmem) (Nat.not_lt.mpr h)

theorem hexDigit?_eq (c : Char) :
    hexDigit? c = if digitValue c < 16 then some (digitValue c) else none := by
  induction c using ascii_induction with
  | ascii n =>
    revert n
    decide
  | beyond c h =>
    rw [digitValue_of_beyond h]
    unfold hexDigit?
    rw [if_neg fun hc => not_le_of_beyond h (by decide) hc.2,
      if_neg fun hc => not_le_of_beyond h (by decide) hc.2,
      if_neg fun hc => not_le_of_beyond h (by decide) hc.2]
    rfl

theorem isDigit_eq (c : Char) : isDigit c = decide (digitValue c < 10) := by
  induction c using ascii_induction with
  | ascii n =>
    revert n
    decide
  | beyond c h =>
    rw [digitValue_of_beyond h]
    unfold isDigit
    rw [decide_eq_false (not_le_of_beyond h (by decide)), Bool.and_false]
    rfl

namespace Radix

variable {radix : Radix}

theorem base_pos (radix : Radix) : 0 < radix.base := by
  cases radix <;> decide

theorem isDigit_iff {c : Char} : radix.isDigit c = true ↔ digitValue c < radix.base := by
  cases radix with
  | decimal =>
    show Text.isDigit c = true ↔ digitValue c < 10
    rw [isDigit_eq, decide_eq_true_iff]
  | hexadecimal =>
    show (hexDigit? c).isSome = true ↔ digitValue c < 16
    rw [hexDigit?_eq]
    by_cases h : digitValue c < 16 <;> simp [h]

def number (radix : Radix) (digits : List Char) : Nat :=
  Nat.ofDigits radix.base (digits.reverse.map digitValue)

theorem number_concat (digits : List Char) (c : Char) :
    radix.number (digits ++ [c]) = radix.number digits * radix.base + digitValue c := by
  unfold number
  rw [List.reverse_concat, List.map_cons, Nat.ofDigits_cons, Nat.add_comm, Nat.mul_comm]

theorem min_mul_add {base : Nat} (h : 0 < base) (n limit digit : Nat) :
    min (min n limit * base + digit) limit = min (n * base + digit) limit := by
  by_cases hle : n ≤ limit
  · rw [Nat.min_eq_left hle]
  · have grown : limit ≤ limit * base := Nat.le_mul_of_pos_right limit h
    have larger : limit * base ≤ n * base := Nat.mul_le_mul_right base (Nat.le_of_not_le hle)
    rw [Nat.min_eq_right (Nat.le_of_not_le hle)]
    omega

theorem digitsUpTo_eq {digits : List Char} (h : ∀ c ∈ digits, digitValue c < radix.base)
    (limit : Nat) : digitsUpTo limit radix.base digits = min (radix.number digits) limit := by
  induction digits using List.reverseRecOn with
  | nil => exact (Nat.zero_min limit).symm
  | append_singleton digits c ih =>
    have earlier := ih fun d hd => h d (List.mem_append_left _ hd)
    have last : digitValue c < 16 := by
      have bound := h c (by simp)
      cases radix <;> simp only [base] at bound <;> omega
    have value : (hexDigit? c).getD 0 = digitValue c := by
      rw [hexDigit?_eq, if_pos last, Option.getD_some]
    unfold digitsUpTo at earlier ⊢
    rw [List.foldl_append, List.foldl_cons, List.foldl_nil, earlier, value,
      min_mul_add radix.base_pos, number_concat]

end Radix

inductive Sign where
  | unsigned
  | plus
  | minus
deriving DecidableEq, Repr

namespace Sign

def text : Sign → List Char
  | unsigned => []
  | plus => ['+']
  | minus => ['-']

def apply : Sign → Nat → Int
  | unsigned, n | plus, n => n
  | minus, n => -n

@[simp] theorem natAbs_apply (sign : Sign) (n : Nat) : (sign.apply n).natAbs = n := by
  cases sign <;> simp [apply]

theorem text_subset (sign : Sign) : sign.text ⊆ ['+', '-'] := by
  cases sign <;> decide

def split : List Char → Sign × List Char
  | '+' :: rest => (plus, rest)
  | '-' :: rest => (minus, rest)
  | cs => (unsigned, cs)

end Sign

inductive Mark where
  | unmarked
  | lower
  | upper
deriving DecidableEq, Repr

namespace Mark

def text : Mark → List Char
  | unmarked => []
  | lower => ['0', 'x']
  | upper => ['0', 'X']

def radix : Mark → Radix
  | unmarked => .decimal
  | lower | upper => .hexadecimal

theorem text_subset (mark : Mark) : mark.text ⊆ ['0', 'x', 'X'] := by
  cases mark <;> decide

theorem base_le (mark : Mark) : mark.radix.base ≤ 16 := by
  cases mark <;> decide

def split : List Char → Mark × List Char
  | '0' :: 'x' :: rest => (lower, rest)
  | '0' :: 'X' :: rest => (upper, rest)
  | cs => (unmarked, cs)

end Mark

/-- A written integer. -/
structure Numeral where
  sign : Sign
  mark : Mark
  digits : List Char
deriving DecidableEq, Repr

namespace Numeral

def text (n : Numeral) : List Char := n.sign.text ++ n.mark.text ++ n.digits

def magnitude (n : Numeral) : Nat := n.mark.radix.number n.digits

def value (n : Numeral) : Int := n.sign.apply n.magnitude

/-- The integer that is read. -/
def reading (n : Numeral) : Int := n.sign.apply (min n.magnitude maxMagnitude)

/-- There are digits, and all of them belong to the radix. -/
structure WellFormed (n : Numeral) : Prop where
  digits_ne_nil : n.digits ≠ []
  digit : ∀ c ∈ n.digits, digitValue c < n.mark.radix.base

/-- A text begins with a numeral and has `rest` behind it: there is no digit more, and a mark that
stands there is taken as one. -/
structure Heads (n : Numeral) (cs rest : List Char) : Prop where
  text : cs = n.text ++ rest
  wellFormed : n.WellFormed
  maximal : ∀ c ∈ rest.head?, n.mark.radix.base ≤ digitValue c
  marked : n.mark = .unmarked → ¬['0', 'x'] <+: n.digits ++ rest ∧ ¬['0', 'X'] <+: n.digits ++ rest

theorem reading_eq_value {n : Numeral} (h : n.value.natAbs ≤ maxMagnitude) :
    n.reading = n.value := by
  rw [value, Sign.natAbs_apply] at h
  rw [reading, Nat.min_eq_left h, value]

theorem natAbs_reading_le (n : Numeral) : n.reading.natAbs ≤ maxMagnitude := by
  rw [reading, Sign.natAbs_apply]
  exact Nat.min_le_right _ _

def split (cs : List Char) : Numeral × List Char :=
  let (sign, cs) := Sign.split cs
  let (mark, cs) := Mark.split cs
  ({ sign, mark, digits := cs.takeWhile mark.radix.isDigit }, cs.dropWhile mark.radix.isDigit)

end Numeral

section Splitting

variable {cs rest : List Char}

theorem Sign.eq_of_split {sign : Sign} (h : Sign.split cs = (sign, rest)) :
    cs = sign.text ++ rest := by
  unfold Sign.split at h
  split at h <;> cases h <;> rfl

theorem Mark.eq_of_split {mark : Mark} (h : Mark.split cs = (mark, rest)) :
    cs = mark.text ++ rest := by
  unfold Mark.split at h
  split at h <;> cases h <;> rfl

theorem Sign.split_of_ne (hplus : ∀ rest, cs ≠ '+' :: rest) (hminus : ∀ rest, cs ≠ '-' :: rest) :
    Sign.split cs = (.unsigned, cs) := by
  unfold Sign.split
  split
  · rename_i rest
    exact absurd rfl (hplus rest)
  · rename_i rest
    exact absurd rfl (hminus rest)
  · rfl

theorem Sign.split_append (sign : Sign) (h : ∀ c ∈ rest.head?, digitValue c < 16) :
    Sign.split (sign.text ++ rest) = (sign, rest) := by
  cases sign with
  | plus | minus => rfl
  | unsigned =>
    refine Sign.split_of_ne ?_ ?_
    · rintro rest rfl
      exact absurd (h '+' rfl) (by decide)
    · rintro rest rfl
      exact absurd (h '-' rfl) (by decide)

theorem Mark.split_append (mark : Mark)
    (h : mark = .unmarked → ¬['0', 'x'] <+: rest ∧ ¬['0', 'X'] <+: rest) :
    Mark.split (mark.text ++ rest) = (mark, rest) := by
  cases mark with
  | lower | upper => rfl
  | unmarked =>
    obtain ⟨lower, upper⟩ := h rfl
    show Mark.split rest = _
    unfold Mark.split
    split
    · exact absurd ⟨_, rfl⟩ lower
    · exact absurd ⟨_, rfl⟩ upper
    · rfl

theorem Mark.not_isPrefix_of_split (h : Mark.split cs = (.unmarked, rest)) :
    ¬['0', 'x'] <+: rest ∧ ¬['0', 'X'] <+: rest := by
  obtain rfl : cs = rest := eq_of_split h
  constructor <;>
    · rintro ⟨rest, rfl⟩
      cases h

theorem takeWhile_append_of_run {p : Char → Bool} {run : List Char} (hrun : ∀ c ∈ run, p c = true)
    (hrest : ∀ c ∈ rest.head?, p c = false) :
    (run ++ rest).takeWhile p = run ∧ (run ++ rest).dropWhile p = rest := by
  rw [List.takeWhile_append_of_pos hrun, List.dropWhile_append_of_pos hrun]
  cases rest with
  | nil => exact ⟨List.append_nil _, rfl⟩
  | cons c rest =>
    have stop := hrest c rfl
    rw [List.takeWhile_cons_of_neg (by simp [stop]), List.dropWhile_cons_of_neg (by simp [stop])]
    exact ⟨List.append_nil _, rfl⟩

end Splitting

namespace Numeral

variable {n : Numeral} {cs rest : List Char}

theorem head?_marked (h : n.WellFormed) (rest : List Char) :
    ∀ c ∈ (n.mark.text ++ (n.digits ++ rest)).head?, digitValue c < 16 := by
  have ⟨ne, digit⟩ := h
  obtain ⟨sign, mark, digits⟩ := n
  have zero : digitValue '0' < 16 := by decide
  cases mark with
  | lower | upper =>
    intro c hc
    obtain rfl : '0' = c := Option.some.inj hc
    exact zero
  | unmarked =>
    obtain ⟨d, digits, rfl⟩ := List.exists_cons_of_ne_nil ne
    intro c hc
    obtain rfl : d = c := Option.some.inj hc
    have decimal : digitValue d < 10 := digit d List.mem_cons_self
    omega

theorem split_eq {sign : Sign} {mark : Mark} {marked digits : List Char}
    (hsign : Sign.split cs = (sign, marked)) (hmark : Mark.split marked = (mark, digits)) :
    split cs = (⟨sign, mark, digits.takeWhile mark.radix.isDigit⟩,
      digits.dropWhile mark.radix.isDigit) := by
  unfold split
  rw [hsign]
  dsimp only
  rw [hmark]

theorem heads_of_split (h : split cs = (n, rest)) (hdigits : n.digits ≠ []) : n.Heads cs rest := by
  obtain ⟨⟨sign, marked⟩, hsign⟩ : ∃ parts, Sign.split cs = parts := ⟨_, rfl⟩
  obtain ⟨⟨mark, digits⟩, hmark⟩ : ∃ parts, Mark.split marked = parts := ⟨_, rfl⟩
  rw [split_eq hsign hmark] at h
  cases h
  have whole := List.takeWhile_append_dropWhile (p := mark.radix.isDigit) (l := digits)
  refine ⟨?_, ⟨hdigits, fun c hc => ?_⟩, fun c hc => ?_, ?_⟩
  · rw [text, List.append_assoc, whole, List.append_assoc, ← Mark.eq_of_split hmark]
    exact Sign.eq_of_split hsign
  · exact Radix.isDigit_iff.mp (List.all_eq_true.mp List.all_takeWhile c hc)
  · have stop := List.head?_dropWhile_not mark.radix.isDigit digits
    rw [Option.mem_def.mp hc] at stop
    rw [← Nat.not_lt, ← Radix.isDigit_iff, stop]
    exact Bool.false_ne_true
  · rintro rfl
    rw [whole]
    exact Mark.not_isPrefix_of_split hmark

theorem Heads.split_eq (h : n.Heads cs rest) : split cs = (n, rest) := by
  obtain ⟨hcs, wellFormed, maximal, marked⟩ := h
  subst hcs
  have sign : Sign.split (n.text ++ rest) = (n.sign, n.mark.text ++ (n.digits ++ rest)) := by
    rw [Numeral.text, List.append_assoc, List.append_assoc]
    exact n.sign.split_append (head?_marked wellFormed rest)
  have digit : ∀ c ∈ n.digits, n.mark.radix.isDigit c = true :=
    fun c hc => Radix.isDigit_iff.mpr (wellFormed.digit c hc)
  have stop : ∀ c ∈ rest.head?, n.mark.radix.isDigit c = false := fun c hc => by
    rw [← Bool.not_eq_true, Radix.isDigit_iff]
    exact Nat.not_lt.mpr (maximal c hc)
  have ⟨digits, behind⟩ := takeWhile_append_of_run digit stop
  rw [Numeral.split_eq sign (n.mark.split_append marked), digits, behind]

theorem Heads.unique {n' : Numeral} {rest' : List Char} (h : n.Heads cs rest)
    (h' : n'.Heads cs rest') : n = n' ∧ rest = rest' :=
  Prod.mk.inj (h.split_eq.symm.trans h'.split_eq)

/-- A character that is neither in a sign nor in a mark nor a digit. -/
def Foreign (c : Char) : Prop := c ∉ ['+', '-'] ++ ['0', 'x', 'X'] ∧ 16 ≤ digitValue c

instance (c : Char) : Decidable (Foreign c) := instDecidableAnd

theorem foreign_of_isWhitespace {c : Char} (h : isWhitespace c = true) : Foreign c := by
  induction c using ascii_induction with
  | ascii n =>
    revert n
    decide
  | beyond c hbeyond =>
    have small : ∀ d ∈ ['+', '-'] ++ ['0', 'x', 'X'], d.toNat < 128 :=
      List.all_iff_forall_prop.mp (by decide)
    exact ⟨fun hmem => absurd (small c hmem) (Nat.not_lt.mpr hbeyond),
      (digitValue_of_beyond hbeyond).ge⟩

theorem WellFormed.not_mem_text (h : n.WellFormed) {c : Char} (hc : Foreign c) : c ∉ n.text := by
  obtain ⟨apart, hdigit⟩ := hc
  rw [List.mem_append, not_or] at apart
  rw [Numeral.text, List.mem_append, List.mem_append]
  rintro ((hmem | hmem) | hmem)
  · exact apart.1 (n.sign.text_subset hmem)
  · exact apart.2 (n.mark.text_subset hmem)
  · exact absurd (h.digit c hmem) (Nat.not_lt.mpr (Nat.le_trans n.mark.base_le hdigit))

theorem WellFormed.not_isWhitespace (h : n.WellFormed) : ∀ c ∈ n.text, isWhitespace c = false := by
  intro c hc
  by_contra hblank
  exact h.not_mem_text (foreign_of_isWhitespace (Bool.eq_true_of_not_eq_false hblank)) hc

theorem Heads.head?_ne (h : n.Heads cs rest) {c : Char} (hc : Foreign c) : cs.head? ≠ some c := by
  intro hhead
  have ne : n.text ≠ [] := List.append_ne_nil_of_right_ne_nil _ h.wellFormed.digits_ne_nil
  rw [h.text, List.head?_append, Option.or_of_isSome (by simpa using ne)] at hhead
  exact h.wellFormed.not_mem_text hc (List.mem_of_head? hhead)

theorem WellFormed.heads (h : n.WellFormed) : n.Heads n.text [] := by
  refine ⟨(List.append_nil _).symm, h, by simp, fun hmark => ?_⟩
  have decimal : ∀ c ∈ n.digits, digitValue c < 10 := by
    have digit := h.digit
    rw [hmark] at digit
    exact digit
  rw [List.append_nil]
  constructor
  · rintro ⟨rest, hdigits⟩
    exact absurd (decimal 'x' (by simp [← hdigits])) (by decide)
  · rintro ⟨rest, hdigits⟩
    exact absurd (decimal 'X' (by simp [← hdigits])) (by decide)

theorem radixPart_eq (negative : Bool) (cs : List Char) :
    (match cs with
      | '0' :: 'x' :: rest => (negative, Radix.hexadecimal, rest)
      | '0' :: 'X' :: rest => (negative, Radix.hexadecimal, rest)
      | _ => (negative, Radix.decimal, cs)) =
      (negative, (Mark.split cs).1.radix, (Mark.split cs).2) := by
  fun_cases Mark.split cs with
  | case1 rest => rfl
  | case2 rest => rfl
  | case3 cs hlower hupper =>
    split
    · rename_i rest
      exact (hlower rest rfl).elim
    · rename_i rest
      exact (hupper rest rfl).elim
    · rfl

theorem splitSignAndRadix_minus (cs : List Char) :
    splitSignAndRadix ('-' :: cs) = (true, (Mark.split cs).1.radix, (Mark.split cs).2) :=
  radixPart_eq true cs

theorem splitSignAndRadix_of_ne_minus (hsign : ∀ rest, cs ≠ '-' :: rest) :
    splitSignAndRadix cs = (false, (Mark.split cs).1.radix, (Mark.split cs).2) := by
  unfold splitSignAndRadix
  split
  rename_i negative cs' heq
  split at heq
  · rename_i rest
    exact absurd rfl (hsign rest)
  · cases heq
    exact radixPart_eq false cs

theorem ofDigits?_eq {negative : Bool} (hsign : negative = decide (n.sign = .minus))
    (hdigit : ∀ c ∈ n.digits, digitValue c < n.mark.radix.base) :
    ofDigits? negative n.mark.radix n.digits =
      if n.digits = [] then none else some n.reading := by
  unfold ofDigits?
  rw [Radix.digitsUpTo_eq hdigit, hsign]
  by_cases hnil : n.digits = []
  · simp [hnil]
  · obtain ⟨sign, mark, digits⟩ := n
    cases sign <;> simp_all [reading, magnitude, Sign.apply]

theorem digit_of_split (cs : List Char) :
    ∀ c ∈ (split cs).1.digits, digitValue c < (split cs).1.mark.radix.base :=
  fun c hc => Radix.isDigit_iff.mp (List.all_eq_true.mp List.all_takeWhile c hc)

theorem leadingInteger?_eq (cs : List Char) : leadingInteger? cs =
    if (split cs).1.digits = [] then none else some (split cs).1.reading := by
  fun_cases leadingInteger? cs with
  | case1 rest => rfl
  | case2 rest => rfl
  | case3 rest hminus hplus =>
    unfold leadingInteger?.unsignedPart
    rw [splitSignAndRadix_of_ne_minus hminus]
    exact ofDigits?_eq (n := (split ('+' :: rest)).1) rfl (digit_of_split _)
  | case4 cs _ _ hplus =>
    unfold leadingInteger?.unsignedPart
    by_cases hminus : ∃ rest, cs = '-' :: rest
    · obtain ⟨rest, rfl⟩ := hminus
      rw [splitSignAndRadix_minus]
      exact ofDigits?_eq (n := (split ('-' :: rest)).1) rfl (digit_of_split _)
    · have hminus := not_exists.mp hminus
      rw [splitSignAndRadix_of_ne_minus hminus, split_eq (Sign.split_of_ne hplus hminus) rfl]
      exact ofDigits?_eq (n := ⟨.unsigned, _, _⟩) rfl
        fun c hc => Radix.isDigit_iff.mp (List.all_eq_true.mp List.all_takeWhile c hc)

theorem integer?_eq (cs : List Char) : integer? cs =
    if (split cs).1.digits ≠ [] ∧ (split cs).1.sign ≠ .plus ∧ (split cs).2 = [] then
      some (split cs).1.reading
    else none := by
  have whole : ∀ sign marked mark digits, Sign.split cs = (sign, marked) → sign ≠ .plus →
      Mark.split marked = (mark, digits) →
      (if digits.all mark.radix.isDigit = true then
        ofDigits? (decide (sign = .minus)) mark.radix digits else none) =
      if (split cs).1.digits ≠ [] ∧ (split cs).1.sign ≠ .plus ∧ (split cs).2 = [] then
        some (split cs).1.reading
      else none := by
    intro sign marked mark digits hsign hne hmark
    rw [split_eq hsign hmark]
    by_cases hall : digits.all mark.radix.isDigit = true
    · have all := List.all_eq_true.mp hall
      rw [if_pos hall, List.takeWhile_eq_self_iff.mpr all, List.dropWhile_eq_nil_iff.mpr all]
      rw [ofDigits?_eq (n := ⟨sign, mark, digits⟩) rfl fun c hc => Radix.isDigit_iff.mp (all c hc)]
      by_cases hnil : digits = [] <;> simp [hnil, hne]
    · rw [if_neg hall, if_neg]
      rintro ⟨-, -, hbehind⟩
      exact hall (List.all_eq_true.mpr (List.dropWhile_eq_nil_iff.mp hbehind))
  unfold integer?
  by_cases hminus : ∃ rest, cs = '-' :: rest
  · obtain ⟨rest, rfl⟩ := hminus
    rw [splitSignAndRadix_minus]
    exact whole .minus rest _ _ rfl (by decide) rfl
  · have hminus := not_exists.mp hminus
    rw [splitSignAndRadix_of_ne_minus hminus]
    by_cases hplus : ∃ rest, cs = '+' :: rest
    · obtain ⟨rest, rfl⟩ := hplus
      rw [if_neg fun h => h.2.1 rfl]
      rfl
    · exact whole .unsigned cs _ _ (Sign.split_of_ne (not_exists.mp hplus) hminus) (by decide) rfl

theorem leadingInteger?_eq_some_iff {z : Int} :
    leadingInteger? cs = some z ↔ ∃ n rest, Heads n cs rest ∧ z = n.reading := by
  rw [leadingInteger?_eq]
  constructor
  · intro h
    split at h
    · cases h
    · rename_i hdigits
      cases h
      exact ⟨_, _, heads_of_split rfl hdigits, rfl⟩
  · rintro ⟨n, rest, h, rfl⟩
    rw [h.split_eq, if_neg h.wellFormed.digits_ne_nil]

theorem integer?_eq_some_iff {z : Int} :
    integer? cs = some z ↔ ∃ n, Heads n cs [] ∧ n.sign ≠ .plus ∧ z = n.reading := by
  rw [integer?_eq]
  constructor
  · intro h
    split at h
    · rename_i hwhole
      obtain ⟨hdigits, hsign, hrest⟩ := hwhole
      cases h
      exact ⟨_, heads_of_split (Prod.ext rfl hrest) hdigits, hsign, rfl⟩
    · cases h
  · rintro ⟨n, h, hsign, rfl⟩
    rw [h.split_eq, if_pos ⟨h.wellFormed.digits_ne_nil, hsign, rfl⟩]

theorem integer?_eq_none {c : Char} (hc : Foreign c) (h : cs.head? = some c) :
    integer? cs = none := by
  by_contra hsome
  obtain ⟨z, hz⟩ := Option.ne_none_iff_exists'.mp hsome
  obtain ⟨n, heads, -, -⟩ := integer?_eq_some_iff.mp hz
  exact heads.head?_ne hc h

end Numeral

end BusMachine.Text
