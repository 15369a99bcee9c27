import BusMachine.Proofs.Wiring.Resolution
import Mathlib.Data.List.Nodup

/-!
Which component lists are accepted, and what they become. A list is accepted exactly if its names,
lines and references are in order; then every component has slots of its own, one behind the other
in the order of the list, and every name stands for the slots of the component that declares it.
-/

namespace BusMachine

theorem Signal.forall_iff {p : Signal → Prop} :
    (∀ s, p s) ↔ p .latch ∧ p .drive ∧ p .incr ∧ p .reset := by
  constructor
  · intro h
    exact ⟨h _, h _, h _, h _⟩
  · rintro ⟨hlatch, hdrive, hincr, hreset⟩ (_ | _ | _ | _) <;> assumption

namespace Component

/-- The names that a component declares: its own and, if it is double, those of its halves. -/
def declaredNames (c : Component) : List String :=
  if c.double then [c.name, c.lowName, c.highName] else [c.name]

def wordNames (c : Component) : List String :=
  if c.double then [c.lowName, c.highName] else [c.name]

/-- Memory and ports only latch and drive, sums and differences only drive. -/
def Kind.Admits : Kind → Lines → Prop
  | .register, _ => True
  | .memory _, lines | .port _, lines => lines.incr = false ∧ lines.reset = false
  | .adder _ _, lines | .subtractor _ _, lines =>
    lines.latch = false ∧ lines.incr = false ∧ lines.reset = false

/-- Memory and ports refer to any declared name, sums and differences to names of one word. -/
def Kind.Known (components : List Component) : Kind → Prop
  | .register => True
  | .memory name | .port name => name ∈ components.flatMap declaredNames
  | .adder lhs rhs | .subtractor lhs rhs =>
    lhs ∈ components.flatMap wordNames ∧ rhs ∈ components.flatMap wordNames

inductive Kind.Resolves {n : Nat} (place? : String → Option (Place n)) : Kind → SlotKind n → Prop
  | register : Resolves place? .register .register
  | memory {name : String} {place : Place n} (h : place? name = some place) :
    Resolves place? (.memory name) (.memory place)
  | port {name : String} {place : Place n} (h : place? name = some place) :
    Resolves place? (.port name) (.port place)
  | adder {lhs rhs : String} {i j : Fin n} (hlhs : place? lhs = some (.single i))
    (hrhs : place? rhs = some (.single j)) : Resolves place? (.adder lhs rhs) (.adder i j)
  | subtractor {lhs rhs : String} {i j : Fin n} (hlhs : place? lhs = some (.single i))
    (hrhs : place? rhs = some (.single j)) :
    Resolves place? (.subtractor lhs rhs) (.subtractor i j)

/-- What a name declared by a component stands for whose first slot is `start`. -/
inductive Names {n : Nat} (c : Component) (start : Nat) : String → Place n → Prop
  | single {slot : Fin n} (single : c.double = false) (hslot : slot.val = start) :
    Names c start c.name (.single slot)
  | double {low high : Fin n} (double : c.double = true) (hlow : low.val = start)
    (hhigh : high.val = start + 1) : Names c start c.name (.double low high)
  | low {slot : Fin n} (double : c.double = true) (hslot : slot.val = start) :
    Names c start c.lowName (.single slot)
  | high {slot : Fin n} (double : c.double = true) (hslot : slot.val = start + 1) :
    Names c start c.highName (.single slot)

/-- The slots of a component from position `start` on. -/
inductive Fills {n : Nat} (place? : String → Option (Place n)) (slots : List (Slot n))
    (c : Component) (start : Nat) : Prop
  | single {kind : SlotKind n} (single : c.double = false) (resolves : c.kind.Resolves place? kind)
    (slot : slots[start]? = some { name := c.name, kind, lines := c.lines })
  | double {high : Fin n} (double : c.double = true) (behind : high.val = start + 1)
    (lowSlot : slots[start]? = some
      { name := c.lowName, kind := .register, lines := c.lines, carryInto := some high })
    (highSlot : slots[start + 1]? = some
      { name := c.highName, kind := .register, lines := c.lines })

theorem Kind.admits_iff {kind : Kind} {lines : Lines} :
    kind.Admits lines ↔ ∀ line ∈ lines.toList, kind.servedLines.contains line = true := by
  simp only [Lines.mem_toList, Signal.forall_iff]
  cases kind <;> simp [Admits, servedLines, Lines.contains, Lines.full]

theorem names_iff_of_single {n : Nat} {c : Component} (single : c.double = false) {slot : Fin n}
    {name : String} {place : Place n} :
    c.Names slot name place ↔ (name, place) = (c.name, .single slot) := by
  constructor
  · rintro (⟨-, hslot⟩ | ⟨double, -⟩ | ⟨double, -⟩ | ⟨double, -⟩)
    · rw [Fin.ext hslot]
    all_goals
      rw [single] at double
      cases double
  · intro h
    cases h
    exact .single single rfl

theorem names_iff_of_double {n : Nat} {c : Component} (double : c.double = true) {low high : Fin n}
    (adjacent : high.val = low.val + 1) {name : String} {place : Place n} :
    c.Names low name place ↔ (name, place) = (c.name, .double low high) ∨
      (name, place) = (c.lowName, .single low) ∨ (name, place) = (c.highName, .single high) := by
  constructor
  · rintro (⟨single, -⟩ | ⟨-, hlow, hhigh⟩ | ⟨-, hslot⟩ | ⟨-, hslot⟩)
    · rw [double] at single
      cases single
    · rw [Fin.ext hlow, Fin.ext (hhigh.trans adjacent.symm)]
      exact .inl rfl
    · rw [Fin.ext hslot]
      exact .inr (.inl rfl)
    · rw [Fin.ext (hslot.trans adjacent.symm)]
      exact .inr (.inr rfl)
  · rintro (h | h | h)
    · cases h
      exact .double double rfl adjacent
    · cases h
      exact .low double rfl
    · cases h
      exact .high double adjacent

instance Kind.decidableAdmits : (kind : Kind) → (lines : Lines) → Decidable (kind.Admits lines)
  | .register, _ => inferInstanceAs (Decidable True)
  | .memory _, lines | .port _, lines =>
    inferInstanceAs (Decidable (lines.incr = false ∧ lines.reset = false))
  | .adder _ _, lines | .subtractor _ _, lines =>
    inferInstanceAs (Decidable (lines.latch = false ∧ lines.incr = false ∧ lines.reset = false))

instance Kind.decidableKnown (components : List Component) :
    (kind : Kind) → Decidable (kind.Known components)
  | .register => inferInstanceAs (Decidable True)
  | .memory name | .port name =>
    inferInstanceAs (Decidable (name ∈ components.flatMap declaredNames))
  | .adder lhs rhs | .subtractor lhs rhs =>
    inferInstanceAs (Decidable
      (lhs ∈ components.flatMap wordNames ∧ rhs ∈ components.flatMap wordNames))

end Component

namespace Wiring

/-- A component list that can be resolved. -/
structure WellFormed (components : List Component) : Prop where
  nodup : (components.flatMap Component.declaredNames).Nodup
  unreserved : reservedName ∉ components.flatMap Component.declaredNames
  double_register : ∀ c ∈ components, c.double = true → c.kind = .register
  admitted : ∀ c ∈ components, c.kind.Admits c.lines
  known : ∀ c ∈ components, c.kind.Known components

instance (components : List Component) : Decidable (WellFormed components) :=
  decidable_of_iff
    ((components.flatMap Component.declaredNames).Nodup ∧
      reservedName ∉ components.flatMap Component.declaredNames ∧
      (∀ c ∈ components, c.double = true → c.kind = .register) ∧
      (∀ c ∈ components, c.kind.Admits c.lines) ∧ ∀ c ∈ components, c.kind.Known components)
    ⟨fun ⟨h₁, h₂, h₃, h₄, h₅⟩ => ⟨h₁, h₂, h₃, h₄, h₅⟩,
      fun ⟨h₁, h₂, h₃, h₄, h₅⟩ => ⟨h₁, h₂, h₃, h₄, h₅⟩⟩

variable {n : Nat}

theorem start_lt {component : Component} {rest : List Component} {start : Nat}
    (h : start + slotCount (component :: rest) = n) : start < n := by
  rw [slotCount, Component.width] at h
  split at h <;> omega

theorem behind_single {component : Component} {rest : List Component} {start : Nat}
    (single : ¬component.double = true) (h : start + slotCount (component :: rest) = n) :
    start + 1 + slotCount rest = n := by
  rwa [slotCount, Component.width, if_neg single, ← Nat.add_assoc] at h

theorem behind_double {component : Component} {rest : List Component} {start : Nat}
    (double : component.double = true) (h : start + slotCount (component :: rest) = n) :
    start + 2 + slotCount rest = n := by
  rwa [slotCount, Component.width, if_pos double, ← Nat.add_assoc] at h

theorem start_succ_lt {component : Component} {rest : List Component} {start : Nat}
    (double : component.double = true) (h : start + slotCount (component :: rest) = n) :
    start + 1 < n := by
  have behind := behind_double double h
  omega

def bindings : (components : List Component) → (start : Nat) →
    start + slotCount components = n → List (String × Place n)
  | [], _, _ => []
  | component :: rest, start, h =>
    if double : component.double = true then
      let low : Fin n := ⟨start, start_lt h⟩
      let high : Fin n := ⟨start + 1, start_succ_lt double h⟩
      (component.name, .double low high) :: (component.lowName, .single low) ::
        (component.highName, .single high) :: bindings rest (start + 2) (behind_double double h)
    else
      (component.name, .single ⟨start, start_lt h⟩) ::
        bindings rest (start + 1) (behind_single double h)

theorem map_fst_bindings {components : List Component} {start : Nat}
    (h : start + slotCount components = n) :
    (bindings components start h).map Prod.fst = components.flatMap Component.declaredNames := by
  induction components generalizing start with
  | nil => rfl
  | cons component rest ih =>
    rw [bindings, List.flatMap_cons, Component.declaredNames]
    split <;> simp [ih]

theorem declare_eq_ok_iff {names declared : List (String × Place n)} {name : String}
    {place : Place n} : declare names name place = .ok declared ↔
      (name ≠ reservedName ∧ names.lookup name = none) ∧ declared = (name, place) :: names := by
  unfold declare
  split
  · rename_i taken
    refine ⟨fun h => (nomatch h), fun h => ?_⟩
    obtain rfl | hsome := taken
    · exact absurd rfl h.1.1
    · rw [h.1.2] at hsome
      cases hsome
  · rename_i free
    obtain ⟨hname, hnone⟩ := not_or.mp free
    have new : names.lookup name = none := Option.not_isSome_iff_eq_none.mp hnone
    exact ⟨fun h => ⟨⟨hname, new⟩, (Except.ok.inj h).symm⟩, fun h => h.2 ▸ rfl⟩

theorem declareAll_eq_ok_iff {components : List Component} {start : Nat}
    (h : start + slotCount components = n) {names declared : List (String × Place n)} :
    declareAll components start h names = .ok declared ↔
      (∀ c ∈ components, c.double = true → c.kind = .register) ∧
      (bindings components start h).foldlM (fun names b => declare names b.1 b.2) names =
        .ok declared := by
  induction components generalizing start names with
  | nil => simp [declareAll, bindings, pure, Except.pure]
  | cons component rest ih =>
    rw [declareAll, bindings, List.forall_mem_cons]
    split
    · rename_i double
      split
      · rename_i unfit
        exact ⟨fun h => (nomatch h), fun h => absurd (h.1.1 double) unfit⟩
      · rename_i fit
        have register : component.kind = .register := not_not.mp fit
        simp only [List.foldlM_cons, bind_eq_ok_iff, ih, register]
        grind
    · rename_i single
      simp only [List.foldlM_cons, bind_eq_ok_iff, ih]
      grind

theorem foldlM_declare_eq_ok_iff {new names declared : List (String × Place n)} :
    new.foldlM (fun names b => declare names b.1 b.2) names = .ok declared ↔
      (new.map Prod.fst).Nodup ∧
      (∀ name ∈ new.map Prod.fst, name ≠ reservedName ∧ names.lookup name = none) ∧
      declared = new.reverse ++ names := by
  induction new generalizing names with
  | nil =>
    exact ⟨fun h => ⟨.nil, by simp, (Except.ok.inj h).symm⟩,
      fun h => congrArg Except.ok h.2.2.symm⟩
  | cons b rest ih =>
    obtain ⟨name, place⟩ := b
    rw [List.foldlM_cons, bind_eq_ok_iff]
    simp only [declare_eq_ok_iff, ih, List.map_cons, List.nodup_cons, List.forall_mem_cons,
      List.reverse_cons, List.append_assoc, List.singleton_append]
    constructor
    · rintro ⟨_, ⟨free, rfl⟩, distinct, fresh, rfl⟩
      have own : name ∉ rest.map Prod.fst := by
        intro hmem
        simpa using (fresh name hmem).2
      refine ⟨⟨own, distinct⟩, ⟨free, fun other hother => ?_⟩, rfl⟩
      obtain ⟨unreserved, missing⟩ := fresh other hother
      rw [List.lookup_cons] at missing
      split at missing
      · cases missing
      · exact ⟨unreserved, missing⟩
    · rintro ⟨⟨own, distinct⟩, ⟨free, fresh⟩, rfl⟩
      refine ⟨_, ⟨free, rfl⟩, distinct, fun other hother => ?_, rfl⟩
      have hne : other ≠ name := fun h => own (h ▸ hother)
      rw [List.lookup_cons, beq_false_of_ne hne]
      exact fresh other hother

theorem lookup_eq_some_iff_mem {names : List (String × Place n)}
    (h : (names.map Prod.fst).Nodup) {name : String} {place : Place n} :
    names.lookup name = some place ↔ (name, place) ∈ names := by
  induction names with
  | nil => simp
  | cons b rest ih =>
    obtain ⟨other, found⟩ := b
    rw [List.map_cons, List.nodup_cons] at h
    rw [List.lookup_cons, List.mem_cons, ← ih h.2]
    split
    · rename_i same
      obtain rfl : name = other := eq_of_beq same
      have gone : (name, place) ∉ rest := fun hmem => h.1 (List.mem_map.mpr ⟨_, hmem, rfl⟩)
      rw [ih h.2]
      simp [gone, eq_comm]
    · rename_i differs
      have hne : name ≠ other := ne_of_beq_false (by simpa using differs)
      simp [hne]

theorem declareAll_ok {components : List Component} {start : Nat}
    (h : start + slotCount components = n) :
    (∃ names, declareAll components start h [] = .ok names) ↔
      (∀ c ∈ components, c.double = true → c.kind = .register) ∧
      (components.flatMap Component.declaredNames).Nodup ∧
      reservedName ∉ components.flatMap Component.declaredNames := by
  simp only [declareAll_eq_ok_iff, foldlM_declare_eq_ok_iff, map_fst_bindings]
  constructor
  · rintro ⟨_, registers, distinct, fresh, -⟩
    exact ⟨registers, distinct, fun hmem => (fresh _ hmem).1 rfl⟩
  · rintro ⟨registers, distinct, unreserved⟩
    exact ⟨_, registers, distinct, fun name hname => ⟨fun h => unreserved (h ▸ hname), rfl⟩, rfl⟩

theorem lookup_declared {components : List Component} {start : Nat}
    {h : start + slotCount components = n} {names : List (String × Place n)}
    (hnames : declareAll components start h [] = .ok names) {name : String} {place : Place n} :
    names.lookup name = some place ↔ (name, place) ∈ bindings components start h := by
  obtain ⟨-, hfold⟩ := (declareAll_eq_ok_iff h).mp hnames
  obtain ⟨distinct, -, rfl⟩ := foldlM_declare_eq_ok_iff.mp hfold
  rw [List.append_nil, lookup_eq_some_iff_mem, List.mem_reverse]
  rwa [List.map_reverse, List.nodup_reverse]

theorem exists_getElem?_cons {α : Type} {a : α} {l : List α} {P : Nat → α → Prop} :
    (∃ k b, (a :: l)[k]? = some b ∧ P k b) ↔ P 0 a ∨ ∃ k b, l[k]? = some b ∧ P (k + 1) b := by
  constructor
  · rintro ⟨_ | k, b, hb, h⟩
    · cases hb
      exact .inl h
    · exact .inr ⟨k, b, hb, h⟩
  · rintro (h | ⟨k, b, hb, h⟩)
    · exact ⟨0, a, rfl, h⟩
    · exact ⟨k + 1, b, hb, h⟩

theorem mem_bindings_iff {components : List Component} {start : Nat}
    (h : start + slotCount components = n) {name : String} {place : Place n} :
    (name, place) ∈ bindings components start h ↔ ∃ (k : Nat) (c : Component),
      components[k]? = some c ∧ c.Names (start + slotCount (components.take k)) name place := by
  induction components generalizing start with
  | nil => simp [bindings]
  | cons component rest ih =>
    rw [exists_getElem?_cons, bindings]
    simp only [List.take_zero, List.take_succ_cons, slotCount, Nat.add_zero, ← Nat.add_assoc]
    split
    · rename_i double
      rw [List.mem_cons, List.mem_cons, List.mem_cons, ih, ← or_assoc, ← or_assoc,
        or_assoc (a := _ = _)]
      simp only [Component.width, double, if_true]
      exact or_congr (Component.names_iff_of_double double rfl).symm Iff.rfl
    · rename_i single
      rw [List.mem_cons, ih]
      simp only [Component.width, single]
      exact or_congr (Component.names_iff_of_single (by simpa using single)).symm Iff.rfl

section Resolving

variable {names : List (String × Place n)}

theorem lookup_eq_ok_iff {name : String} {place : Place n} :
    lookup names name = .ok place ↔ names.lookup name = some place := by
  unfold lookup
  cases names.lookup name <;> simp

theorem lookupSlot_eq_ok_iff {name : String} {slot : Fin n} :
    lookupSlot names name = .ok slot ↔ names.lookup name = some (.single slot) := by
  unfold lookupSlot
  rcases names.lookup name with _ | (_ | _) <;> simp

theorem resolveKind_eq_ok_iff {kind : Component.Kind} {resolved : SlotKind n} :
    resolveKind names kind = .ok resolved ↔ kind.Resolves (names.lookup ·) resolved := by
  constructor
  · intro h
    cases kind with
    | register =>
      cases h
      exact .register
    | memory name =>
      obtain ⟨place, hplace, h⟩ := bind_eq_ok_iff.mp h
      cases h
      exact .memory (lookup_eq_ok_iff.mp hplace)
    | port name =>
      obtain ⟨place, hplace, h⟩ := bind_eq_ok_iff.mp h
      cases h
      exact .port (lookup_eq_ok_iff.mp hplace)
    | adder lhs rhs =>
      obtain ⟨i, hi, h⟩ := bind_eq_ok_iff.mp h
      obtain ⟨j, hj, h⟩ := bind_eq_ok_iff.mp h
      cases h
      exact .adder (lookupSlot_eq_ok_iff.mp hi) (lookupSlot_eq_ok_iff.mp hj)
    | subtractor lhs rhs =>
      obtain ⟨i, hi, h⟩ := bind_eq_ok_iff.mp h
      obtain ⟨j, hj, h⟩ := bind_eq_ok_iff.mp h
      cases h
      exact .subtractor (lookupSlot_eq_ok_iff.mp hi) (lookupSlot_eq_ok_iff.mp hj)
  · intro h
    cases h with
    | register => rfl
    | memory hplace | port hplace =>
      exact bind_eq_ok_iff.mpr ⟨_, lookup_eq_ok_iff.mpr hplace, rfl⟩
    | adder hlhs hrhs | subtractor hlhs hrhs =>
      exact bind_eq_ok_iff.mpr ⟨_, lookupSlot_eq_ok_iff.mpr hlhs,
        bind_eq_ok_iff.mpr ⟨_, lookupSlot_eq_ok_iff.mpr hrhs, rfl⟩⟩

theorem resolveSingle_eq_ok_iff {c : Component} {slot : Slot n} :
    resolveSingle names c = .ok slot ↔ c.kind.Admits c.lines ∧
      ∃ kind, c.kind.Resolves (names.lookup ·) kind ∧
        slot = { name := c.name, kind, lines := c.lines } := by
  unfold resolveSingle
  rw [Component.Kind.admits_iff]
  split
  · rename_i line hline
    have unserved := List.find?_some hline
    refine ⟨fun h => (nomatch h), fun h => ?_⟩
    rw [h.1 line (List.mem_of_find?_eq_some hline)] at unserved
    cases unserved
  · rename_i hnone
    have served : ∀ line ∈ c.lines.toList, c.kind.servedLines.contains line = true := by
      simpa using hnone
    rw [bind_eq_ok_iff]
    simp only [resolveKind_eq_ok_iff]
    constructor
    · rintro ⟨kind, hkind, h⟩
      exact ⟨served, kind, hkind, (Except.ok.inj h).symm⟩
    · rintro ⟨-, kind, hkind, rfl⟩
      exact ⟨kind, hkind, rfl⟩

theorem resolveAll_ok {components : List Component} {start : Nat}
    (h : start + slotCount components = n) :
    (∃ slots, resolveAll names components start h = .ok slots) ↔
      ∀ c ∈ components, c.double = false → ∃ slot, resolveSingle names c = .ok slot := by
  induction components generalizing start with
  | nil => exact ⟨fun _ _ hc => (nomatch hc), fun _ => ⟨_, rfl⟩⟩
  | cons component rest ih =>
    rw [resolveAll, List.forall_mem_cons]
    split
    · rename_i double
      constructor
      · rintro ⟨slots, hslots⟩
        obtain ⟨tail, htail, -⟩ := bind_eq_ok_iff.mp hslots
        exact ⟨fun single => absurd (double.symm.trans single) (by simp), (ih _).mp ⟨tail, htail⟩⟩
      · rintro ⟨-, hrest⟩
        obtain ⟨tail, htail⟩ := (ih _).mpr hrest
        exact ⟨_, bind_eq_ok_iff.mpr ⟨tail, htail, rfl⟩⟩
    · rename_i single
      constructor
      · rintro ⟨slots, hslots⟩
        obtain ⟨slot, hslot, hslots⟩ := bind_eq_ok_iff.mp hslots
        obtain ⟨tail, htail, -⟩ := bind_eq_ok_iff.mp hslots
        exact ⟨fun _ => ⟨slot, hslot⟩, (ih _).mp ⟨tail, htail⟩⟩
      · rintro ⟨hfirst, hrest⟩
        obtain ⟨slot, hslot⟩ := hfirst (by simpa using single)
        obtain ⟨tail, htail⟩ := (ih _).mpr hrest
        exact ⟨_, bind_eq_ok_iff.mpr ⟨slot, hslot, bind_eq_ok_iff.mpr ⟨tail, htail, rfl⟩⟩⟩

theorem fills_resolveAll {components : List Component} {start : Nat}
    {h : start + slotCount components = n}
    {slots : { slots : List (Slot n) // slots.length = slotCount components }}
    (hok : resolveAll names components start h = .ok slots) (before : List (Slot n))
    (hbefore : before.length = start) {k : Nat} {c : Component} (hk : components[k]? = some c) :
    c.Fills (names.lookup ·) (before ++ slots.1) (start + slotCount (components.take k)) := by
  induction components generalizing start before k with
  | nil => cases hk
  | cons component rest ih =>
    subst hbefore
    rw [resolveAll] at hok
    split at hok
    · rename_i double
      obtain ⟨tail, htail, hok⟩ := bind_eq_ok_iff.mp hok
      cases hok
      cases k with
      | zero =>
        cases hk
        have inside : before.length + 1 < n := by
          simp only [slotCount, Component.width, double, if_true] at h
          omega
        exact @Component.Fills.double _ _ _ _ _ ⟨before.length + 1, inside⟩ double
          (by simp [slotCount]) (by simp [slotCount]) (by simp [slotCount])
      | succ k =>
        simp only [List.take_succ_cons, slotCount, Component.width, double, if_true,
          ← Nat.add_assoc]
        rw [List.append_cons, List.append_cons]
        exact ih htail _ (by simp) hk
    · rename_i single
      obtain ⟨slot, hslot, hok⟩ := bind_eq_ok_iff.mp hok
      obtain ⟨tail, htail, hok⟩ := bind_eq_ok_iff.mp hok
      cases hok
      obtain ⟨-, kind, hkind, rfl⟩ := resolveSingle_eq_ok_iff.mp hslot
      cases k with
      | zero =>
        cases hk
        exact .single (by simpa using single) hkind (by simp [slotCount])
      | succ k =>
        simp only [List.take_succ_cons, slotCount, Component.width, single, ← Nat.add_assoc]
        rw [List.append_cons]
        exact ih htail _ (by simp) hk

theorem exists_resolves_iff {components : List Component} {place? : String → Option (Place n)}
    (places : ∀ name, (∃ place, place? name = some place) ↔
      name ∈ components.flatMap Component.declaredNames)
    (words : ∀ name, (∃ slot, place? name = some (.single slot)) ↔
      name ∈ components.flatMap Component.wordNames) {kind : Component.Kind} :
    (∃ resolved, kind.Resolves place? resolved) ↔ kind.Known components := by
  constructor
  · rintro ⟨_, _ | h | h | ⟨hlhs, hrhs⟩ | ⟨hlhs, hrhs⟩⟩
    · trivial
    · exact (places _).mp ⟨_, h⟩
    · exact (places _).mp ⟨_, h⟩
    · exact ⟨(words _).mp ⟨_, hlhs⟩, (words _).mp ⟨_, hrhs⟩⟩
    · exact ⟨(words _).mp ⟨_, hlhs⟩, (words _).mp ⟨_, hrhs⟩⟩
  · intro h
    cases kind with
    | register => exact ⟨_, .register⟩
    | memory name =>
      obtain ⟨place, hplace⟩ := (places name).mpr h
      exact ⟨_, .memory hplace⟩
    | port name =>
      obtain ⟨place, hplace⟩ := (places name).mpr h
      exact ⟨_, .port hplace⟩
    | adder lhs rhs =>
      obtain ⟨i, hi⟩ := (words lhs).mpr h.1
      obtain ⟨j, hj⟩ := (words rhs).mpr h.2
      exact ⟨_, .adder hi hj⟩
    | subtractor lhs rhs =>
      obtain ⟨i, hi⟩ := (words lhs).mpr h.1
      obtain ⟨j, hj⟩ := (words rhs).mpr h.2
      exact ⟨_, .subtractor hi hj⟩

end Resolving

section Whole

variable {components : List Component} {names : List (String × Place (slotCount components))}

theorem slotCount_take_add_width_le {k : Nat} {c : Component} (hk : components[k]? = some c) :
    slotCount (components.take k) + c.width ≤ slotCount components := by
  induction components generalizing k with
  | nil => cases hk
  | cons component rest ih =>
    cases k with
    | zero =>
      cases hk
      simp [slotCount]
    | succ k =>
      have later := ih hk
      simp only [List.take_succ_cons, slotCount]
      omega

variable (hnames : declareAll components 0 (Nat.zero_add _) [] = .ok names)
include hnames

theorem lookup_eq_some_iff_names {name : String} {place : Place (slotCount components)} :
    names.lookup name = some place ↔ ∃ (k : Nat) (c : Component),
      components[k]? = some c ∧ c.Names (slotCount (components.take k)) name place := by
  rw [lookup_declared hnames, mem_bindings_iff]
  simp only [Nat.zero_add]

theorem exists_place_iff {name : String} : (∃ place, names.lookup name = some place) ↔
    name ∈ components.flatMap Component.declaredNames := by
  rw [← map_fst_bindings (Nat.zero_add _), List.mem_map]
  simp only [lookup_declared hnames]
  constructor
  · rintro ⟨place, h⟩
    exact ⟨_, h, rfl⟩
  · rintro ⟨⟨_, place⟩, h, rfl⟩
    exact ⟨place, h⟩

theorem exists_slot_iff {name : String} : (∃ slot, names.lookup name = some (.single slot)) ↔
    name ∈ components.flatMap Component.wordNames := by
  simp only [lookup_eq_some_iff_names hnames]
  rw [List.mem_flatMap]
  constructor
  · rintro ⟨slot, k, c, hk, hname⟩
    refine ⟨c, List.mem_of_getElem? hk, ?_⟩
    unfold Component.wordNames
    cases hname with
    | single single => simp [single]
    | low double => simp [double]
    | high double => simp [double]
  · rintro ⟨c, hc, hname⟩
    obtain ⟨k, hk⟩ := List.getElem?_of_mem hc
    have inside := slotCount_take_add_width_le hk
    unfold Component.wordNames at hname
    unfold Component.width at inside
    split at hname
    · rename_i double
      rw [if_pos double] at inside
      simp only [List.mem_cons, List.not_mem_nil, or_false] at hname
      obtain rfl | rfl := hname
      · exact ⟨⟨_, by omega⟩, k, c, hk, .low double rfl⟩
      · exact ⟨⟨_, by omega⟩, k, c, hk, .high double rfl⟩
    · rename_i single
      rw [if_neg single] at inside
      obtain rfl := List.mem_singleton.mp hname
      exact ⟨⟨_, by omega⟩, k, c, hk, .single (by simpa using single) rfl⟩

theorem exists_resolveSingle_iff {c : Component} :
    (∃ slot, resolveSingle names c = .ok slot) ↔
      c.kind.Admits c.lines ∧ c.kind.Known components := by
  rw [← exists_resolves_iff (fun _ => exists_place_iff hnames) fun _ => exists_slot_iff hnames]
  simp only [resolveSingle_eq_ok_iff]
  constructor
  · rintro ⟨_, admits, kind, resolves, -⟩
    exact ⟨admits, kind, resolves⟩
  · rintro ⟨admits, kind, resolves⟩
    exact ⟨_, admits, kind, resolves, rfl⟩

end Whole

theorem exists_ofComponents_iff {components : List Component} :
    (∃ w, ofComponents components = .ok w) ↔ WellFormed components := by
  constructor
  · rintro ⟨w, h⟩
    obtain ⟨names, hnames, h⟩ := bind_eq_ok_iff.mp h
    obtain ⟨slots, hslots, -⟩ := bind_eq_ok_iff.mp h
    obtain ⟨registers, distinct, unreserved⟩ := (declareAll_ok _).mp ⟨names, hnames⟩
    have resolved := (resolveAll_ok _).mp ⟨slots, hslots⟩
    have sound : ∀ c ∈ components, c.kind.Admits c.lines ∧ c.kind.Known components := by
      intro c hc
      cases double : c.double with
      | true =>
        rw [registers c hc double]
        exact ⟨trivial, trivial⟩
      | false => exact (exists_resolveSingle_iff hnames).mp (resolved c hc double)
    exact ⟨distinct, unreserved, registers, fun c hc => (sound c hc).1, fun c hc => (sound c hc).2⟩
  · intro h
    obtain ⟨names, hnames⟩ :=
      (declareAll_ok (Nat.zero_add _)).mpr ⟨h.double_register, h.nodup, h.unreserved⟩
    obtain ⟨slots, hslots⟩ := (resolveAll_ok (Nat.zero_add _)).mpr fun c hc _ =>
      (exists_resolveSingle_iff hnames).mpr ⟨h.admitted c hc, h.known c hc⟩
    exact ⟨_, bind_eq_ok_iff.mpr ⟨names, hnames, bind_eq_ok_iff.mpr ⟨slots, hslots, rfl⟩⟩⟩

def mentioned (w : Wiring) : List (Fin w.size) :=
  w.names.flatMap (·.2.slots) ++ w.toList.flatMap fun s => s.kind.reads ++ s.carryInto.toList

/-- What a component list becomes. -/
structure Realizes (w : Wiring) (components : List Component) : Prop where
  size_eq : w.size = slotCount components
  /-- Every component has slots of its own, behind those of the components before it. -/
  fills : ∀ (k : Nat) (c : Component), components[k]? = some c →
    c.Fills w.place? w.toList (slotCount (components.take k))
  /-- A name stands for the slots of the component that declares it. -/
  names : ∀ (k : Nat) (c : Component), components[k]? = some c →
    ∀ name place, c.Names (slotCount (components.take k)) name place → w.place? name = some place
  undeclared : ∀ name, name ∉ components.flatMap Component.declaredNames → w.place? name = none
  mentioned_lt : ∀ slot ∈ w.mentioned, slot.val < slotCount components

theorem realizes_of_ofComponents {components : List Component} {w : Wiring}
    (h : ofComponents components = .ok w) : w.Realizes components := by
  have size_eq := ofComponents_size h
  obtain ⟨names, hnames, h⟩ := bind_eq_ok_iff.mp h
  obtain ⟨slots, hslots, h⟩ := bind_eq_ok_iff.mp h
  cases h
  refine ⟨size_eq, fun k c hk => ?_, fun k c hk name place hname => ?_, fun name hname => ?_,
    fun slot _ => slot.isLt⟩
  · have filled := fills_resolveAll hslots [] rfl hk
    rw [Nat.zero_add] at filled
    exact filled
  · exact (lookup_eq_some_iff_names hnames).mpr ⟨k, c, hk, hname⟩
  · rw [← exists_place_iff hnames, not_exists] at hname
    exact Option.eq_none_iff_forall_ne_some.mpr hname

/-- A component list is accepted exactly if it is well-formed: all names, those of the halves of
double components among them, are distinct and none is reserved, only registers are double, every
component has only lines that its kind admits, and every reference is to a declared name of a
fitting kind, declared before or after. Then each component has slots of its own in the order of the
list, two adjacent ones with a carry from the low to the high if it is double, with its own lines
and the behaviour of its own kind, and exactly the declared names stand for these slots. -/
theorem ofComponents_exact (components : List Component) :
    ((∃ w, ofComponents components = .ok w) ↔ WellFormed components) ∧
      ∀ w, ofComponents components = .ok w → w.Realizes components :=
  ⟨exists_ofComponents_iff, fun _ => realizes_of_ofComponents⟩

def pagedComponents : List Component :=
  [.ofKind "memory" (.memory "address"),
    { name := "address", lines := .full, double := true },
    .register "a" { latch := true, drive := true },
    .ofKind "sum" (.adder "a" "address_l")]

theorem ofComponents_exact_paged : ∃ w, ofComponents pagedComponents = .ok w ∧
    w.Realizes pagedComponents ∧ w.size = 5 := by
  obtain ⟨accepted, exact⟩ := ofComponents_exact pagedComponents
  obtain ⟨w, hw⟩ := accepted.mpr (by decide)
  exact ⟨w, hw, exact w hw, (exact w hw).size_eq⟩

end Wiring

end BusMachine
