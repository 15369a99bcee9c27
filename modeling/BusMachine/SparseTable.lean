/-!
Sparse tables: finitely many entries keyed by numbers and kept in ascending order of their keys, so
that a table has one representation and is listed in order. Addresses, port numbers and opcodes are
such keys.

Main statements: `get?_insert` and `get?_erase` say what each operation does to the view `get?`.
-/

namespace BusMachine

/-- A finite map from numbers, in ascending order of its keys. -/
structure SparseTable (α : Type u) where
  entries : List (Nat × α)
  ascending : entries.Pairwise fun p q => p.1 < q.1

namespace SparseTable

variable {α : Type u}

def find? (k : Nat) : List (Nat × α) → Option α
  | [] => none
  | (j, a) :: rest => if j = k then some a else find? k rest

/-- Puts `a` at key `k` of an ascending list, in place of an entry that is there. -/
def put (k : Nat) (a : α) : List (Nat × α) → List (Nat × α)
  | [] => [(k, a)]
  | (j, b) :: rest =>
    if j < k then (j, b) :: put k a rest
    else if j = k then (k, a) :: rest
    else (k, a) :: (j, b) :: rest

theorem key_mem_put {k : Nat} {a : α} {l : List (Nat × α)} {p : Nat × α} (h : p ∈ put k a l) :
    p = (k, a) ∨ p ∈ l := by
  induction l with
  | nil => simpa [put] using h
  | cons q rest ih =>
    rcases q with ⟨j, b⟩
    unfold put at h
    split at h
    · rcases List.mem_cons.1 h with rfl | h
      · simp
      · rcases ih h with h | h <;> simp [h]
    · split at h
      · rcases List.mem_cons.1 h with h | h <;> simp [h]
      · rcases List.mem_cons.1 h with h | h
        · simp [h]
        · exact .inr h

theorem ascending_put {k : Nat} {a : α} {l : List (Nat × α)}
    (h : l.Pairwise fun p q => p.1 < q.1) : (put k a l).Pairwise fun p q => p.1 < q.1 := by
  induction l with
  | nil => simp [put]
  | cons q rest ih =>
    rcases q with ⟨j, b⟩
    rw [List.pairwise_cons] at h
    unfold put
    split
    · rename_i hjk
      rw [List.pairwise_cons]
      refine ⟨fun p hp => ?_, ih h.2⟩
      rcases key_mem_put hp with rfl | hp
      · exact hjk
      · exact h.1 p hp
    · split
      · rename_i hjk
        subst hjk
        exact List.pairwise_cons.2 h
      · rename_i h₁ h₂
        rw [List.pairwise_cons]
        refine ⟨fun p hp => ?_, List.pairwise_cons.2 h⟩
        rcases List.mem_cons.1 hp with rfl | hp
        · show k < j
          omega
        · have := h.1 p hp
          show k < p.1
          omega

def empty : SparseTable α := ⟨[], .nil⟩

instance : Inhabited (SparseTable α) := ⟨empty⟩

def get? (t : SparseTable α) (k : Nat) : Option α := find? k t.entries

def insert (t : SparseTable α) (k : Nat) (a : α) : SparseTable α :=
  ⟨put k a t.entries, ascending_put t.ascending⟩

def insertIfNew (t : SparseTable α) (k : Nat) (a : α) : SparseTable α :=
  match t.get? k with
  | some _ => t
  | none => t.insert k a

def erase (t : SparseTable α) (k : Nat) : SparseTable α :=
  ⟨t.entries.filter (·.1 != k), t.ascending.filter _⟩

/-- A table of pairs, where the last pair of a key counts. -/
def ofList (pairs : List (Nat × α)) : SparseTable α :=
  pairs.foldl (fun t p => t.insert p.1 p.2) empty

def keys (t : SparseTable α) : List Nat := t.entries.map Prod.fst

def values (t : SparseTable α) : List α := t.entries.map Prod.snd

def size (t : SparseTable α) : Nat := t.entries.length

/-- The last entry whose key is at most `k`. -/
def floor? (t : SparseTable α) (k : Nat) : Option (Nat × α) :=
  (t.entries.takeWhile (·.1 ≤ k)).getLast?

def modify (t : SparseTable α) (k : Nat) (f : α → α) : SparseTable α :=
  match t.get? k with
  | some a => t.insert k (f a)
  | none => t

theorem find?_put (k : Nat) (a : α) (j : Nat) (l : List (Nat × α))
    (h : l.Pairwise fun p q => p.1 < q.1) :
    find? j (put k a l) = if k = j then some a else find? j l := by
  induction l with
  | nil => simp [put, find?]
  | cons q rest ih =>
    rcases q with ⟨i, b⟩
    rw [List.pairwise_cons] at h
    unfold put
    split
    · rename_i hik
      simp only [find?, ih h.2]
      by_cases hij : i = j
      · have : k ≠ j := by omega
        simp [hij, this]
      · simp [hij]
    · split
      · rename_i hik
        subst hik
        simp only [find?]
        by_cases hij : i = j <;> simp [hij]
      · simp [find?]

@[simp] theorem get?_empty (k : Nat) : (empty : SparseTable α).get? k = none := rfl

theorem get?_insert (t : SparseTable α) (k : Nat) (a : α) (j : Nat) :
    (t.insert k a).get? j = if k = j then some a else t.get? j :=
  find?_put k a j t.entries t.ascending

theorem get?_erase (t : SparseTable α) (k j : Nat) :
    (t.erase k).get? j = if k = j then none else t.get? j := by
  show find? j (t.entries.filter _) = if k = j then none else find? j t.entries
  induction t.entries with
  | nil => simp [find?]
  | cons p rest ih =>
    rcases p with ⟨i, a⟩
    by_cases hik : i = k
    · subst hik
      by_cases hij : i = j
      · simpa [find?, hij] using ih
      · simpa [find?, hij] using ih
    · have keep : ((i, a) :: rest).filter (·.1 != k) = (i, a) :: rest.filter (·.1 != k) := by
        simp [hik]
      rw [keep]
      by_cases hij : i = j
      · have : k ≠ j := by omega
        simp [find?, hij, this]
      · simpa [find?, hij] using ih

theorem find?_eq_some_iff {k : Nat} {a : α} {l : List (Nat × α)}
    (h : l.Pairwise fun p q => p.1 < q.1) : find? k l = some a ↔ (k, a) ∈ l := by
  induction l with
  | nil => simp [find?]
  | cons q rest ih =>
    obtain ⟨j, b⟩ := q
    rw [List.pairwise_cons] at h
    by_cases hjk : j = k
    · subst hjk
      have fresh : (j, a) ∉ rest := fun hmem => Nat.lt_irrefl j (h.1 _ hmem)
      simp [find?, fresh, eq_comm]
    · simp [find?, hjk, ih h.2, Ne.symm hjk]

theorem get?_eq_some_iff {t : SparseTable α} {k : Nat} {a : α} :
    t.get? k = some a ↔ (k, a) ∈ t.entries :=
  find?_eq_some_iff t.ascending

theorem get?_insertIfNew (t : SparseTable α) (k : Nat) (a : α) (j : Nat) :
    (t.insertIfNew k a).get? j = (t.get? j).or (if k = j then some a else none) := by
  unfold insertIfNew
  cases hk : t.get? k with
  | none =>
    rw [get?_insert]
    by_cases hkj : k = j
    · subst hkj
      simp [hk]
    · simp [hkj]
  | some b =>
    by_cases hkj : k = j
    · subst hkj
      simp [hk]
    · simp [hkj]

theorem getLast?_takeWhile {k j : Nat} {a : α} {l : List (Nat × α)}
    (h : l.Pairwise fun p q => p.1 < q.1) (hmem : (j, a) ∈ l) (hjk : j ≤ k)
    (hgap : ∀ p ∈ l, p.1 ≤ k → p.1 ≤ j) : (l.takeWhile (·.1 ≤ k)).getLast? = some (j, a) := by
  induction l with
  | nil => cases hmem
  | cons q rest ih =>
    rw [List.pairwise_cons] at h
    cases hmem with
    | head =>
      -- all other keys are behind `k`
      have none : rest.takeWhile (·.1 ≤ k) = [] := by
        cases rest with
        | nil => rfl
        | cons p rest =>
          have hlt := h.1 p List.mem_cons_self
          have hle := hgap p (List.mem_cons_of_mem _ List.mem_cons_self)
          have hnot : ¬p.1 ≤ k := fun hpk => Nat.lt_irrefl j (Nat.lt_of_lt_of_le hlt (hle hpk))
          simp [hnot]
      simp [hjk, none]
    | tail _ hmem =>
      have hlt := h.1 _ hmem
      have hqk : q.1 ≤ k := Nat.le_trans (Nat.le_of_lt hlt) hjk
      have later := ih h.2 hmem fun p hp => hgap p (List.mem_cons_of_mem _ hp)
      simp [hqk, List.getLast?_cons, later]

theorem floor?_eq_some {t : SparseTable α} {k j : Nat} {a : α} (h : t.get? j = some a)
    (hjk : j ≤ k) (hgap : ∀ i, j < i → i ≤ k → t.get? i = none) : t.floor? k = some (j, a) := by
  refine getLast?_takeWhile t.ascending (get?_eq_some_iff.mp h) hjk fun p hp hpk => ?_
  refine Nat.le_of_not_lt fun hlt => ?_
  have hsome := get?_eq_some_iff.mpr hp
  rw [hgap p.1 hlt hpk] at hsome
  cases hsome

theorem get?_of_floor? {t : SparseTable α} {k j : Nat} {a : α} (h : t.floor? k = some (j, a)) :
    t.get? j = some a ∧ j ≤ k := by
  have hmem := List.mem_of_getLast? h
  have hle := List.all_eq_true.mp List.all_takeWhile _ hmem
  exact ⟨get?_eq_some_iff.mpr ((List.takeWhile_sublist _).subset hmem), of_decide_eq_true hle⟩

theorem get?_ofList (pairs : List (Nat × α)) (k : Nat) :
    (ofList pairs).get? k = pairs.reverse.lookup k := by
  have last : ∀ l : List (Nat × α),
      (l.foldr (fun p t => insert t p.1 p.2) empty).get? k = l.lookup k := by
    intro l
    induction l with
    | nil => rfl
    | cons p rest ih =>
      rw [List.foldr_cons, get?_insert, ih, List.lookup_cons]
      by_cases hk : p.1 = k
      · simp [hk]
      · have hne : (k == p.1) = false := beq_false_of_ne (Ne.symm hk)
        simp [hk, hne]
  rw [ofList, ← last, List.foldr_reverse]

end SparseTable

end BusMachine
