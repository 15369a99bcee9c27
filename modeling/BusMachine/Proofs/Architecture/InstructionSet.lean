import BusMachine.Instruction
import BusMachine.Proofs.Acceptance
import BusMachine.Proofs.Text.Case
import Mathlib.Data.List.Induction
import Mathlib.Data.List.Pairwise

/-!
Which lists of instructions make a set, and what such a set holds. A list is accepted exactly if no
two of its instructions clash. Then every instruction is found under its opcode and, in any case,
under its mnemonic, nothing else is found, and the set lists its instructions by their opcodes. A
list that is not accepted is refused for the first instruction that clashes with one in front of it.
-/

namespace BusMachine

namespace Instruction

/-- The instruction as a set keeps it, with its mnemonic in lower case. -/
def kept (i : Instruction) : Instruction := { i with name := Text.lower i.name }

/-- Instructions that share an opcode or, but for the case, a mnemonic. -/
def Clashes (i j : Instruction) : Prop := i.opcode = j.opcode ∨ Text.EqualUpToCase i.name j.name

instance : DecidableRel Clashes := fun i j =>
  inferInstanceAs (Decidable (i.opcode = j.opcode ∨ Text.EqualUpToCase i.name j.name))

theorem Clashes.symm {i j : Instruction} (h : i.Clashes j) : j.Clashes i :=
  h.imp Eq.symm Text.EqualUpToCase.symm

end Instruction

namespace InstructionSet

variable {set set' : InstructionSet} {instructions before : List Instruction} {i j : Instruction}
  {fault : BuildFault}

def Distinct (instructions : List Instruction) : Prop :=
  instructions.Pairwise fun i j => ¬i.Clashes j

instance : DecidablePred Distinct := fun instructions =>
  inferInstanceAs (Decidable (instructions.Pairwise fun i j => ¬i.Clashes j))

/-- Opcodes find the instructions of a list and nothing else. -/
def Decodes (set : InstructionSet) (instructions : List Instruction) : Prop :=
  ∀ opcode found, set.decode? opcode = some found ↔
    ∃ i ∈ instructions, i.opcode = opcode ∧ i.kept = found

def Names (set : InstructionSet) (instructions : List Instruction) : Prop :=
  ∀ name found, set.named? name = some found ↔
    ∃ i ∈ instructions, Text.EqualUpToCase i.name name ∧ i.kept = found

/-- The set of the instructions of a list: both look-ups lead to them, and each is listed once, in
the order of the opcodes. -/
structure Holds (set : InstructionSet) (instructions : List Instruction) : Prop where
  decodes : set.Decodes instructions
  names : set.Names instructions
  ascending : set.toList.Pairwise fun i j => i.opcode < j.opcode
  perm : set.toList.Perm (instructions.map Instruction.kept)
  size_eq : set.size = instructions.length

/-- What is wrong with an instruction behind others: its opcode has an owner, or its opcode is new
and its mnemonic is not. -/
inductive Rejects (before : List Instruction) (i : Instruction) : BuildFault → Prop
  | opcode {owner : Instruction} (mem : owner ∈ before) (taken : owner.opcode = i.opcode) :
    Rejects before i (.duplicateOpcode i.opcode (Text.lower owner.name) i.name)
  | mnemonic {owner : Instruction} (fresh : ∀ j ∈ before, j.opcode ≠ i.opcode)
    (mem : owner ∈ before) (taken : Text.EqualUpToCase owner.name i.name) :
    Rejects before i (.duplicateMnemonic (Text.lower i.name))

theorem Distinct.eq_of_clashes (h : Distinct instructions) (hi : i ∈ instructions)
    (hj : j ∈ instructions) (clash : i.Clashes j) : i = j := by
  have symmetric : Std.Symm fun i j : Instruction => ¬i.Clashes j :=
    ⟨fun _ _ apart clash => apart clash.symm⟩
  by_contra different
  exact h.forall hi hj different clash

theorem distinct_concat :
    Distinct (before ++ [i]) ↔ Distinct before ∧ ∀ j ∈ before, ¬j.Clashes i := by
  simp [Distinct, List.pairwise_append]

theorem Rejects.exists_clashes (h : Rejects before i fault) : ∃ j ∈ before, j.Clashes i := by
  cases h with
  | opcode mem taken => exact ⟨_, mem, .inl taken⟩
  | mnemonic _ mem taken => exact ⟨_, mem, .inr taken⟩

theorem add_eq_ok_iff : set.add i = .ok set' ↔
    set.decode? i.opcode = none ∧ set.named? i.name = none ∧
      set' = ⟨set.table.insert i.opcode i.kept⟩ := by
  unfold add
  cases set.decode? i.opcode with
  | some owner => simp
  | none =>
    cases set.named? i.name with
    | some owner => simp
    | none => simp [Instruction.kept, eq_comm]

theorem add_eq_error_iff : set.add i = .error fault ↔
    (∃ owner, set.decode? i.opcode = some owner ∧
      fault = .duplicateOpcode i.opcode owner.name i.name) ∨
    set.decode? i.opcode = none ∧ ∃ owner, set.named? i.name = some owner ∧
      fault = .duplicateMnemonic owner.name := by
  unfold add
  cases set.decode? i.opcode with
  | some owner => simp [eq_comm]
  | none =>
    cases set.named? i.name with
    | some owner => simp [eq_comm]
    | none => simp

theorem eq_none_iff_of_finds {lookup : Option Instruction} {fits : Instruction → Prop}
    (finds : ∀ found, lookup = some found ↔ ∃ i ∈ before, fits i ∧ i.kept = found) :
    lookup = none ↔ ∀ j ∈ before, ¬fits j := by
  rw [Option.eq_none_iff_forall_ne_some]
  constructor
  · intro nothing j hj hfits
    exact nothing j.kept ((finds _).mpr ⟨j, hj, hfits, rfl⟩)
  · intro misfit found hfound
    obtain ⟨j, hj, hfits, -⟩ := (finds found).mp hfound
    exact misfit j hj hfits

theorem Holds.not_clashes_of_add (h : set.Holds before) (hadd : set.add i = .ok set') :
    ∀ j ∈ before, ¬j.Clashes i := by
  obtain ⟨hopcode, hname, -⟩ := add_eq_ok_iff.mp hadd
  rintro j hj (taken | taken)
  · exact (eq_none_iff_of_finds (h.decodes _)).mp hopcode j hj taken
  · exact (eq_none_iff_of_finds (h.names _)).mp hname j hj taken

theorem Holds.add_eq_error_iff (h : set.Holds before) :
    set.add i = .error fault ↔ Rejects before i fault := by
  rw [InstructionSet.add_eq_error_iff, eq_none_iff_of_finds (h.decodes _)]
  simp only [h.decodes _ _, h.names _ _]
  constructor
  · rintro (⟨_, ⟨owner, mem, taken, rfl⟩, rfl⟩ | ⟨fresh, _, ⟨owner, mem, taken, rfl⟩, rfl⟩)
    · exact .opcode mem taken
    · have name : owner.kept.name = Text.lower i.name := Text.lower_eq_lower_iff.mpr taken
      rw [name]
      exact .mnemonic fresh mem taken
  · rintro (⟨mem, taken⟩ | ⟨fresh, mem, taken⟩)
    · exact .inl ⟨_, ⟨_, mem, taken, rfl⟩, rfl⟩
    · refine .inr ⟨fresh, _, ⟨_, mem, taken, rfl⟩, ?_⟩
      exact congrArg _ (Text.lower_eq_lower_iff.mpr taken).symm

theorem decode?_add (h : set.add i = .ok set') (opcode : Word) :
    set'.decode? opcode = if i.opcode = opcode then some i.kept else set.decode? opcode := by
  obtain ⟨-, -, rfl⟩ := add_eq_ok_iff.mp h
  exact SparseTable.get?_insert _ _ _ _

theorem Decodes.add (h : set.Decodes before) (fresh : ∀ j ∈ before, ¬j.Clashes i)
    (hadd : set.add i = .ok set') : set'.Decodes (before ++ [i]) := by
  intro opcode found
  rw [decode?_add hadd]
  by_cases own : i.opcode = opcode
  · have gone : ∀ j ∈ before, j.opcode ≠ opcode := fun j hj same =>
      fresh j hj (.inl (same.trans own.symm))
    simp only [own, if_true, Option.some.injEq]
    grind
  · simp only [own, if_false, h opcode found]
    grind

theorem mem_entries_iff {opcode : Word} :
    (opcode, i) ∈ set.table.entries ↔ set.decode? opcode = some i :=
  SparseTable.get?_eq_some_iff.symm

theorem Decodes.mem_toList_iff (h : set.Decodes instructions) {found : Instruction} :
    found ∈ set.toList ↔ ∃ i ∈ instructions, i.kept = found := by
  unfold toList SparseTable.values
  constructor
  · intro hmem
    obtain ⟨⟨opcode, _⟩, hentry, rfl⟩ := List.mem_map.mp hmem
    obtain ⟨i, hi, -, rfl⟩ := (h _ _).mp (mem_entries_iff.mp hentry)
    exact ⟨i, hi, rfl⟩
  · rintro ⟨i, hi, rfl⟩
    exact List.mem_map.mpr ⟨(i.opcode, i.kept), mem_entries_iff.mpr ((h _ _).mpr ⟨i, hi, rfl, rfl⟩),
      rfl⟩

theorem Decodes.ascending (h : set.Decodes instructions) :
    set.toList.Pairwise fun i j => i.opcode < j.opcode := by
  have own : ∀ entry ∈ set.table.entries, entry.2.opcode = entry.1 := by
    rintro ⟨opcode, found⟩ hentry
    obtain ⟨i, -, rfl, rfl⟩ := (h _ _).mp (mem_entries_iff.mp hentry)
    rfl
  refine List.pairwise_map.mpr (set.table.ascending.imp_of_mem fun ha hb hlt => ?_)
  rw [own _ ha, own _ hb]
  exact hlt

theorem Decodes.perm (h : set.Decodes instructions) (distinct : Distinct instructions) :
    set.toList.Perm (instructions.map Instruction.kept) := by
  have listed : set.toList.Nodup := h.ascending.imp fun {a b} (hlt : a.opcode < b.opcode) same =>
    Nat.ne_of_lt hlt (congrArg Instruction.opcode same)
  have given : (instructions.map Instruction.kept).Nodup := by
    refine List.pairwise_map.mpr (distinct.imp fun {a b} apart same => apart (.inl ?_))
    show a.kept.opcode = b.kept.opcode
    exact congrArg Instruction.opcode same
  refine (List.perm_ext_iff_of_nodup listed given).mpr fun found => ?_
  rw [h.mem_toList_iff, List.mem_map]

theorem named?_eq_find? (set : InstructionSet) (name : String) :
    set.named? name = set.toList.find? fun i => i.name == Text.lower name := by
  unfold named? toList SparseTable.values
  rw [List.find?_map]
  rfl

theorem Decodes.names (h : set.Decodes instructions) (distinct : Distinct instructions) :
    set.Names instructions := by
  intro name found
  have reached : ∀ {found}, set.named? name = some found →
      ∃ i ∈ instructions, Text.EqualUpToCase i.name name ∧ i.kept = found := by
    intro found hfound
    rw [named?_eq_find?] at hfound
    obtain ⟨i, hi, rfl⟩ := h.mem_toList_iff.mp (List.mem_of_find?_eq_some hfound)
    have same := List.find?_some hfound
    exact ⟨i, hi, Text.lower_eq_lower_iff.mp (eq_of_beq same), rfl⟩
  refine ⟨reached, ?_⟩
  rintro ⟨i, hi, hname, rfl⟩
  have somewhere : (set.named? name).isSome := by
    rw [named?_eq_find?, List.find?_isSome]
    exact ⟨i.kept, h.mem_toList_iff.mpr ⟨i, hi, rfl⟩,
      beq_iff_eq.mpr (Text.lower_eq_lower_iff.mpr hname)⟩
  obtain ⟨found, hfound⟩ := Option.isSome_iff_exists.mp somewhere
  obtain ⟨j, hj, hjname, rfl⟩ := reached hfound
  have same : j = i := distinct.eq_of_clashes hj hi (.inr (hjname.trans hname.symm))
  rw [hfound, same]

theorem Decodes.holds (h : set.Decodes instructions) (distinct : Distinct instructions) :
    set.Holds instructions where
  decodes := h
  names := h.names distinct
  ascending := h.ascending
  perm := h.perm distinct
  size_eq := by
    have length := (h.perm distinct).length_eq
    rw [List.length_map] at length
    rw [← length, toList, SparseTable.values, List.length_map]
    rfl

theorem ofList_concat (before : List Instruction) (i : Instruction) :
    ofList (before ++ [i]) = ofList before >>= fun set => set.add i := by
  unfold ofList
  rw [List.foldlM_append]
  simp

theorem holds_of_ofList (h : ofList instructions = .ok set) :
    Distinct instructions ∧ set.Holds instructions := by
  induction instructions using List.reverseRecOn generalizing set with
  | nil =>
    cases h
    have none : empty.Decodes [] := fun opcode found => by simp [decode?, empty]
    exact ⟨.nil, none.holds .nil⟩
  | append_singleton before i ih =>
    rw [ofList_concat] at h
    obtain ⟨reached, hbefore, hadd⟩ := bind_eq_ok_iff.mp h
    obtain ⟨distinct, holds⟩ := ih hbefore
    have fresh := holds.not_clashes_of_add hadd
    have distinct' := distinct_concat.mpr ⟨distinct, fresh⟩
    exact ⟨distinct', (holds.decodes.add fresh hadd).holds distinct'⟩

theorem exists_ofList_iff : (∃ set, ofList instructions = .ok set) ↔ Distinct instructions := by
  constructor
  · rintro ⟨set, h⟩
    exact (holds_of_ofList h).1
  · intro distinct
    cases h : ofList instructions with
    | ok set => exact ⟨set, rfl⟩
    | error fault =>
      obtain ⟨before, i, after, reached, rfl, hbefore, hadd⟩ := foldlM_eq_error_iff.mp h
      have rejects := (holds_of_ofList hbefore).2.add_eq_error_iff.mp hadd
      obtain ⟨j, hj, clash⟩ := rejects.exists_clashes
      obtain ⟨-, -, apart⟩ := List.pairwise_append.mp distinct
      exact absurd clash (apart j hj i List.mem_cons_self)

theorem ofList_eq_error_iff : ofList instructions = .error fault ↔
    ∃ before i after, instructions = before ++ i :: after ∧ Distinct before ∧
      Rejects before i fault := by
  unfold ofList
  rw [foldlM_eq_error_iff]
  constructor
  · rintro ⟨before, i, after, reached, rfl, hbefore, hadd⟩
    obtain ⟨distinct, holds⟩ := holds_of_ofList hbefore
    exact ⟨before, i, after, rfl, distinct, holds.add_eq_error_iff.mp hadd⟩
  · rintro ⟨before, i, after, rfl, distinct, rejects⟩
    obtain ⟨reached, hbefore⟩ := exists_ofList_iff.mpr distinct
    have holds := (holds_of_ofList hbefore).2
    exact ⟨before, i, after, reached, rfl, hbefore, holds.add_eq_error_iff.mpr rejects⟩

/-- A list is accepted exactly if no two of its instructions share an opcode or, but for the case, a
mnemonic. Then opcodes and mnemonics in any case find its instructions, as they are but for the case
of the mnemonic, and nothing else, and the set lists each of them once, in the order of the opcodes.
Otherwise the fault is that of the first instruction that clashes with one in front of it. Where its
opcode has an owner, the fault names that owner, whatever its mnemonic is. -/
theorem ofList_exact (instructions : List Instruction) :
    ((∃ set, ofList instructions = .ok set) ↔ Distinct instructions) ∧
    (∀ set, ofList instructions = .ok set → set.Holds instructions) ∧
    ∀ fault, ofList instructions = .error fault ↔
      ∃ before i after, instructions = before ++ i :: after ∧ Distinct before ∧
        Rejects before i fault :=
  ⟨exists_ofList_iff, fun _ h => (holds_of_ofList h).2, fun _ => ofList_eq_error_iff⟩

theorem ofList_exact_mixedCase :
    let listed : List Instruction := [⟨"Load", 7, [.immediate], "A = #value"⟩, ⟨"NOP", 0, [], ""⟩,
      ⟨"jmp", 3, [.address], "jumps to $target"⟩]
    (∃ set, ofList listed = .ok set ∧ set.Holds listed ∧
      set.named? "lOAD" = some ⟨"load", 7, [.immediate], "A = #value"⟩) ∧
    ofList (listed ++ [⟨"noP", 7, [], ""⟩, ⟨"nop", 1, [], ""⟩]) =
      .error (.duplicateOpcode 7 "load" "noP") := by
  intro listed
  obtain ⟨accepted, holds, -⟩ := ofList_exact listed
  obtain ⟨-, -, refused⟩ := ofList_exact (listed ++ [⟨"noP", 7, [], ""⟩, ⟨"nop", 1, [], ""⟩])
  obtain ⟨set, hset⟩ := accepted.mpr (by decide)
  have first : ⟨"Load", 7, [.immediate], "A = #value"⟩ ∈ listed := List.mem_cons_self
  have found := ((holds set hset).names "lOAD" _).mpr ⟨_, first, by decide, rfl⟩
  have rejects : Rejects listed ⟨"noP", 7, [], ""⟩ (.duplicateOpcode 7 "load" "noP") :=
    .opcode first rfl
  exact ⟨⟨set, hset, holds set hset, found⟩,
    (refused _).mpr ⟨listed, _, _, rfl, by decide, rejects⟩⟩

theorem decode?_of_mem (h : ofList instructions = .ok set) (hi : i ∈ set.toList) :
    set.decode? i.opcode = some i := by
  have decodes := (holds_of_ofList h).2.decodes
  obtain ⟨j, hj, rfl⟩ := decodes.mem_toList_iff.mp hi
  exact (decodes _ _).mpr ⟨j, hj, rfl, rfl⟩

theorem of_named? (h : ofList instructions = .ok set) {text : String}
    (hi : set.named? text = some i) : set.decode? i.opcode = some i ∧ i.name = Text.lower text := by
  have holds := (holds_of_ofList h).2
  obtain ⟨j, hj, hname, rfl⟩ := (holds.names _ _).mp hi
  exact ⟨(holds.decodes _ _).mpr ⟨j, hj, rfl, rfl⟩, Text.lower_eq_lower_iff.mpr hname⟩

theorem eq_of_named? (h : ofList instructions = .ok set) (hi : i ∈ set.toList) {text : String}
    {j : Instruction} (hj : set.named? text = some j) (hopcode : j.opcode = i.opcode) : j = i := by
  have decoded := (of_named? h hj).1
  rw [hopcode, decode?_of_mem h hi] at decoded
  exact (Option.some.inj decoded).symm

end InstructionSet

end BusMachine
