import BusMachine.Proofs.Acceptance
import BusMachine.Wiring

/-!
What a resolved component list guarantees: every slot has only lines that its kind serves, so no
line of an accepted wiring can ask a slot for something it cannot do.
-/

namespace BusMachine

variable {n : Nat}

def Place.slots : Place n → List (Fin n)
  | .single slot => [slot]
  | .double low high => [low, high]

/-- The slots that a slot of a kind reads besides its own. -/
def SlotKind.reads : SlotKind n → List (Fin n)
  | .register => []
  | .memory address => address.slots
  | .port selector => selector.slots
  | .adder lhs rhs | .subtractor lhs rhs => [lhs, rhs]

def SlotKind.servedLines : SlotKind n → Lines
  | .register => .full
  | .memory _ | .port _ => { latch := true, drive := true }
  | .adder _ _ | .subtractor _ _ => { drive := true }

def Slot.Served (s : Slot n) : Prop :=
  ∀ line, s.lines.contains line = true → s.kind.servedLines.contains line = true

/-- A wiring of slots that can serve all their lines. -/
def Wiring.Served (w : Wiring) : Prop := ∀ i : Fin w.size, (w.slots.get i).Served

theorem Slot.served_register {s : Slot n} (h : s.kind = .register) : s.Served := by
  intro line _
  rw [h]
  cases line <;> rfl

theorem Slot.Served.latch_eq_false {s : Slot n} (h : s.Served) {lhs rhs : Fin n}
    (hkind : s.kind = .adder lhs rhs ∨ s.kind = .subtractor lhs rhs) :
    s.lines.contains .latch = false := by
  by_contra hlatch
  have served := h .latch (by simpa using hlatch)
  obtain hkind | hkind := hkind <;> rw [hkind] at served <;> cases served

namespace Wiring

theorem resolveKind_servedLines {names : List (String × Place n)} {kind : Component.Kind}
    {resolved : SlotKind n} (h : resolveKind names kind = .ok resolved) :
    resolved.servedLines = kind.servedLines := by
  cases kind with
  | register =>
    cases h
    rfl
  | memory address =>
    obtain ⟨place, -, h⟩ := bind_eq_ok_iff.mp h
    cases h
    rfl
  | port selector =>
    obtain ⟨place, -, h⟩ := bind_eq_ok_iff.mp h
    cases h
    rfl
  | adder lhs rhs =>
    obtain ⟨l, -, h⟩ := bind_eq_ok_iff.mp h
    obtain ⟨r, -, h⟩ := bind_eq_ok_iff.mp h
    cases h
    rfl
  | subtractor lhs rhs =>
    obtain ⟨l, -, h⟩ := bind_eq_ok_iff.mp h
    obtain ⟨r, -, h⟩ := bind_eq_ok_iff.mp h
    cases h
    rfl

theorem resolveSingle_served {names : List (String × Place n)} {component : Component}
    {slot : Slot n} (h : resolveSingle names component = .ok slot) : slot.Served := by
  unfold resolveSingle at h
  split at h
  · cases h
  · rename_i accepted
    obtain ⟨kind, hkind, h⟩ := bind_eq_ok_iff.mp h
    cases h
    intro line hline
    have checked := List.find?_eq_none.mp accepted line (Lines.mem_toList.mpr hline)
    rw [resolveKind_servedLines hkind]
    simpa using checked

theorem resolveAll_served {names : List (String × Place n)} {components : List Component}
    {start : Nat} {h : start + slotCount components = n}
    {slots : { slots : List (Slot n) // slots.length = slotCount components }}
    (hok : resolveAll names components start h = .ok slots) : ∀ s ∈ slots.1, s.Served := by
  induction components generalizing start with
  | nil =>
    cases hok
    intro s hs
    cases hs
  | cons component rest ih =>
    rw [resolveAll] at hok
    split at hok
    · obtain ⟨tail, htail, hok⟩ := bind_eq_ok_iff.mp hok
      cases hok
      intro s hs
      obtain rfl | hs := List.mem_cons.mp hs
      · exact Slot.served_register rfl
      obtain rfl | hs := List.mem_cons.mp hs
      · exact Slot.served_register rfl
      · exact ih htail s hs
    · obtain ⟨slot, hslot, hok⟩ := bind_eq_ok_iff.mp hok
      obtain ⟨tail, htail, hok⟩ := bind_eq_ok_iff.mp hok
      cases hok
      intro s hs
      obtain rfl | hs := List.mem_cons.mp hs
      · exact resolveSingle_served hslot
      · exact ih htail s hs

theorem ofComponents_served {components : List Component} {w : Wiring}
    (h : ofComponents components = .ok w) : w.Served := by
  obtain ⟨names, -, h⟩ := bind_eq_ok_iff.mp h
  obtain ⟨slots, hslots, h⟩ := bind_eq_ok_iff.mp h
  cases h
  intro i
  exact resolveAll_served hslots _ (by simp [Vector.get])

theorem ofComponents_size {components : List Component} {w : Wiring}
    (h : ofComponents components = .ok w) : w.size = slotCount components := by
  obtain ⟨names, -, h⟩ := bind_eq_ok_iff.mp h
  obtain ⟨slots, -, h⟩ := bind_eq_ok_iff.mp h
  cases h
  rfl

end Wiring

end BusMachine
