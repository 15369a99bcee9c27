import BusMachine.Proofs.Assembly.Statement
import BusMachine.Proofs.Text.Decimal

/-!
The data that a text asks for: a block for every string and one for every buffer name, in the order
in which the text mentions them first.
-/

namespace BusMachine

namespace Text

def decimal (digits : List Char) : Nat :=
  digits.foldl (fun n c => n * 10 + (c.toNat - '0'.toNat)) 0

theorem decimal_eq_ofDigitChars (digits : List Char) :
    decimal digits = Nat.ofDigitChars 10 digits 0 := by
  unfold decimal Nat.ofDigitChars
  congr 1
  funext n c
  rw [Nat.mul_comm]

theorem digitsUpTo_eq_min (limit : Nat) {digits : List Char}
    (h : ∀ c ∈ digits, isDigit c = true) :
    digitsUpTo limit 10 digits = min (decimal digits) limit := by
  rw [decimal_eq_ofDigitChars]
  exact digitsUpTo_decimal h limit

end Text

namespace Assembly

def bufferName (declaration : List Char) : String :=
  String.ofList (declaration.takeWhile (· != '['))

def bufferLength (wordSize : Nat) (declaration : List Char) : Nat :=
  match declaration.dropWhile (· != '[') with
  | [] => 1
  | _ :: size => min (Text.decimal (size.takeWhile Text.isDigit)) wordSize

/-- The block that a token asks for behind `strings` strings. -/
def Token.block? (wordSize strings : Nat) (t : Token) : Option DataBlock :=
  match t.lexeme with
  | .string codes terminated =>
    let characters := codes.map fun code => min code (min (wordSize - 1) maxWord)
    some
      { symbol := .string strings
        words := characters ++ if terminated then [0] else []
        position := t.position }
  | .word text =>
    match text.toList with
    | '$' :: declaration =>
      some
        { symbol := .buffer (bufferName declaration)
          words := List.replicate (bufferLength wordSize declaration) 0
          position := t.position }
    | _ => none

def stringsBefore (tokens : List Token) (i : Nat) : Nat := (tokens.take i).countP Token.isString

/-- The block that a token of a text asks for, even if its symbol has one. -/
def asked? (wordSize : Nat) (tokens : List Token) (i : Nat) : Option DataBlock :=
  tokens[i]?.bind (Token.block? wordSize (stringsBefore tokens i))

/-- The block that comes from a token: none if an earlier one has asked for the same symbol. -/
def created? (wordSize : Nat) (tokens : List Token) (i : Nat) : Option DataBlock :=
  (asked? wordSize tokens i).filter fun block =>
    ∀ j < i, ∀ other ∈ asked? wordSize tokens j, other.symbol ≠ block.symbol

/-- The data of a text. -/
def regions (wordSize : Nat) (tokens : List Token) : List DataBlock :=
  (List.range tokens.length).filterMap (created? wordSize tokens)

section Asked

variable {wordSize : Nat} {tokens : List Token} {t : Token} {i : Nat} {block : DataBlock}

theorem stringsBefore_append (h : i ≤ tokens.length) :
    stringsBefore (tokens ++ [t]) i = stringsBefore tokens i := by
  unfold stringsBefore
  rw [List.take_append_of_le_length h]

theorem stringsBefore_lt {j : Nat} (hj : tokens[j]? = some t) (hstring : t.isString = true)
    (hlt : j < i) : stringsBefore tokens j < stringsBefore tokens i := by
  have upTo : tokens.take (j + 1) = tokens.take j ++ [t] := by
    rw [List.take_add_one, hj, Option.toList_some]
  have more : (tokens.take (j + 1)).countP Token.isString ≤
      (tokens.take i).countP Token.isString :=
    (List.take_sublist_take_left hlt).countP_le
  rw [upTo, List.countP_append, List.countP_singleton, if_pos hstring] at more
  exact more

theorem asked?_append (h : i < tokens.length) :
    asked? wordSize (tokens ++ [t]) i = asked? wordSize tokens i := by
  unfold asked?
  rw [List.getElem?_append_left h, stringsBefore_append (Nat.le_of_lt h)]

theorem asked?_concat : asked? wordSize (tokens ++ [t]) tokens.length =
    t.block? wordSize (stringsBefore tokens tokens.length) := by
  unfold asked?
  rw [List.getElem?_concat_length, stringsBefore_append (Nat.le_refl _), Option.bind_some]

theorem symbol_block?_ne_user {strings : Nat} (h : t.block? wordSize strings = some block)
    (name : String) : block.symbol ≠ .user name := by
  unfold Token.block? at h
  split at h
  · cases h
    exact Symbol.noConfusion
  · split at h
    · cases h
      exact Symbol.noConfusion
    · cases h

theorem symbol_block? {strings k : Nat} (h : t.block? wordSize strings = some block)
    (hsymbol : block.symbol = .string k) : t.isString = true ∧ k = strings := by
  unfold Token.block? at h
  unfold Token.isString
  cases hlexeme : t.lexeme with
  | string codes terminated =>
    rw [hlexeme] at h
    cases h
    cases hsymbol
    exact ⟨rfl, rfl⟩
  | word text =>
    rw [hlexeme] at h
    dsimp only at h
    split at h
    · cases h
      cases hsymbol
    · cases h

theorem created?_eq_some_iff : created? wordSize tokens i = some block ↔
    asked? wordSize tokens i = some block ∧
      ∀ j < i, ∀ other, asked? wordSize tokens j = some other → other.symbol ≠ block.symbol := by
  unfold created?
  rw [Option.filter_eq_some_iff, decide_eq_true_iff]
  rfl

theorem created?_of_string (hi : tokens[i]? = some t) (hstring : t.isString = true)
    (hasked : asked? wordSize tokens i = some block) :
    created? wordSize tokens i = some block := by
  refine created?_eq_some_iff.mpr ⟨hasked, fun j hj other hother hsame => ?_⟩
  obtain ⟨t', ht', hblock⟩ := Option.bind_eq_some_iff.mp hother
  obtain ⟨_, hi', hown⟩ := Option.bind_eq_some_iff.mp hasked
  cases hi.symm.trans hi'
  have own : block.symbol = .string (stringsBefore tokens i) := by
    unfold Token.isString at hstring
    unfold Token.block? at hown
    split at hstring
    · rename_i hlexeme
      rw [hlexeme] at hown
      cases hown
      rfl
    · cases hstring
  have ⟨hstring', hcount⟩ := symbol_block? hblock (hsame.trans own)
  exact absurd hcount.symm (Nat.ne_of_lt (stringsBefore_lt ht' hstring' hj))

theorem created?_append (h : i < tokens.length) :
    created? wordSize (tokens ++ [t]) i = created? wordSize tokens i := by
  have earlier : ∀ block : DataBlock,
      (∀ j < i, ∀ other ∈ asked? wordSize (tokens ++ [t]) j, other.symbol ≠ block.symbol) ↔
        ∀ j < i, ∀ other ∈ asked? wordSize tokens j, other.symbol ≠ block.symbol := by
    intro block
    refine forall₂_congr fun j hj => ?_
    rw [asked?_append (Nat.lt_trans hj h)]
  unfold created?
  simp only [asked?_append h, earlier]

theorem regions_concat : regions wordSize (tokens ++ [t]) =
    regions wordSize tokens ++ (created? wordSize (tokens ++ [t]) tokens.length).toList := by
  unfold regions
  rw [List.length_append, List.length_singleton, List.range_succ, List.filterMap_append]
  congr 1
  refine List.filterMap_congr fun i hi => ?_
  exact created?_append (List.mem_range.mp hi)

theorem nodup_regions : ((regions wordSize tokens).map DataBlock.symbol).Nodup := by
  unfold regions List.Nodup
  rw [List.pairwise_map, List.pairwise_filterMap]
  refine List.pairwise_lt_range.imp fun {i j} hlt first hfirst second hsecond => ?_
  have ⟨hasked, _⟩ := created?_eq_some_iff.mp hfirst
  exact (created?_eq_some_iff.mp hsecond).2 i hlt first hasked

theorem mem_regions_iff :
    block ∈ regions wordSize tokens ↔ ∃ i, created? wordSize tokens i = some block := by
  unfold regions
  rw [List.mem_filterMap]
  constructor
  · rintro ⟨i, -, h⟩
    exact ⟨i, h⟩
  · rintro ⟨i, h⟩
    obtain ⟨_, hi, -⟩ := Option.bind_eq_some_iff.mp (created?_eq_some_iff.mp h).1
    exact ⟨i, List.mem_range.mpr (List.getElem?_eq_some_iff.mp hi).1, h⟩

theorem exists_region (h : asked? wordSize tokens i = some block) :
    ∃ region ∈ regions wordSize tokens, region.symbol = block.symbol := by
  induction i using Nat.strongRecOn generalizing block with
  | _ i ih =>
    by_cases hearlier : ∃ j < i, ∃ other, asked? wordSize tokens j = some other ∧
        other.symbol = block.symbol
    · obtain ⟨j, hj, other, hother, hsame⟩ := hearlier
      obtain ⟨region, hregion, hsymbol⟩ := ih j hj hother
      exact ⟨region, hregion, hsymbol.trans hsame⟩
    · have first : created? wordSize tokens i = some block := by
        refine created?_eq_some_iff.mpr ⟨h, fun j hj other hother hsame => ?_⟩
        exact hearlier ⟨j, hj, other, hother, hsame⟩
      exact ⟨block, mem_regions_iff.mpr ⟨i, first⟩, rfl⟩

end Asked

end Assembly

end BusMachine
