import BusMachine.Proofs.Wiring.Acceptance

/-!
Where the words of a component are kept: a single component has one slot under its name, a double
one has two under its name and each of them under a name of its own, and no two components share a
slot.
-/

namespace BusMachine.Wiring

structure SingleAt (w : Wiring) (component : Component) (slot : Fin w.size) : Prop where
  place : w.place? component.name = some (.single slot)
  lines : (w.slots.get slot).lines = component.lines
  carryInto : (w.slots.get slot).carryInto = none

structure DoubleAt (w : Wiring) (component : Component) (low high : Fin w.size) : Prop where
  place : w.place? component.name = some (.double low high)
  lowPlace : w.place? component.lowName = some (.single low)
  highPlace : w.place? component.highName = some (.single high)
  adjacent : high.val = low.val + 1
  lowSlot : w.slots.get low =
    { name := component.lowName, kind := .register, lines := component.lines,
       carryInto := some high }
  highSlot : w.slots.get high =
    { name := component.highName, kind := .register, lines := component.lines }

theorem DoubleAt.low_ne_high {w : Wiring} {component : Component} {low high : Fin w.size}
    (h : w.DoubleAt component low high) : low ≠ high := by
  rintro rfl
  have adjacent := h.adjacent
  omega

theorem DoubleAt.register {w : Wiring} {component : Component} {low high : Fin w.size}
    (h : w.DoubleAt component low high) : ∀ i ∈ [low, high],
      (w.slots.get i).kind = .register ∧ (w.slots.get i).lines = component.lines := by
  rintro i (_ | ⟨_, _ | ⟨_, ⟨⟩⟩⟩)
  · rw [h.lowSlot]
    exact ⟨rfl, rfl⟩
  · rw [h.highSlot]
    exact ⟨rfl, rfl⟩

theorem get_eq_of_getElem? {w : Wiring} {i : Fin w.size} {slot : Slot w.size}
    (h : w.toList[i.val]? = some slot) : w.slots.get i = slot := by
  rw [toList, Vector.getElem?_toList, Vector.getElem?_eq_getElem i.isLt] at h
  exact Option.some.inj h

theorem slotCount_take_add_width_le_take {components : List Component} {k k' : Nat}
    {component : Component} (hk : components[k]? = some component) (hlt : k < k') :
    slotCount (components.take k) + component.width ≤ slotCount (components.take k') := by
  have inside : (components.take k')[k]? = some component := by
    rwa [List.getElem?_take_of_lt hlt]
  have before := slotCount_take_add_width_le inside
  rwa [List.take_take, Nat.min_eq_left (Nat.le_of_lt hlt)] at before

section Placed

variable {components : List Component} {w : Wiring} (hw : ofComponents components = .ok w)
include hw

theorem exists_singleAt {component : Component} (hmem : component ∈ components)
    (single : component.double = false) : ∃ slot, w.SingleAt component slot := by
  have realizes := realizes_of_ofComponents hw
  obtain ⟨k, hk⟩ := List.getElem?_of_mem hmem
  have inside := slotCount_take_add_width_le hk
  rw [← realizes.size_eq, Component.width, single, if_neg Bool.false_ne_true] at inside
  refine ⟨⟨slotCount (components.take k), inside⟩, ?_, ?_, ?_⟩
  · exact realizes.names k component hk _ _ (.single single rfl)
  all_goals
    cases realizes.fills k component hk with
    | single _ _ slot =>
      rw [get_eq_of_getElem? slot]
    | double double _ _ _ =>
      rw [single] at double
      cases double

theorem exists_doubleAt {component : Component} {k : Nat} (hk : components[k]? = some component)
    (double : component.double = true) :
    ∃ low high, low.val = slotCount (components.take k) ∧ w.DoubleAt component low high := by
  have realizes := realizes_of_ofComponents hw
  have inside := slotCount_take_add_width_le hk
  rw [← realizes.size_eq, Component.width, double, if_pos rfl] at inside
  have filled := realizes.fills k component hk
  cases filled with
  | single single _ _ =>
    rw [double] at single
    cases single
  | @double high _ behind lowSlot highSlot =>
    refine ⟨⟨slotCount (components.take k), by omega⟩, high, rfl, ?_, ?_, ?_, behind, ?_, ?_⟩
    · exact realizes.names k component hk _ _ (.double double rfl behind)
    · exact realizes.names k component hk _ _ (.low double rfl)
    · exact realizes.names k component hk _ _ (.high double behind)
    · exact get_eq_of_getElem? lowSlot
    · exact get_eq_of_getElem? (behind ▸ highSlot)

theorem slot_of_place? {name : String} {slot : Fin w.size}
    (h : w.place? name = some (.single slot)) : (w.slots.get slot).name = name ∧
      ((w.slots.get slot).carryInto = none ∨ ∃ c ∈ components, name = c.lowName) := by
  have realizes := realizes_of_ofComponents hw
  have declared : name ∈ components.flatMap Component.declaredNames := by
    by_contra undeclared
    rw [realizes.undeclared name undeclared] at h
    cases h
  obtain ⟨c, hc, hname⟩ := List.mem_flatMap.mp declared
  obtain ⟨k, hk⟩ := List.getElem?_of_mem hc
  unfold Component.declaredNames at hname
  cases hdouble : c.double with
  | false =>
    obtain rfl : name = c.name := by simpa [hdouble] using hname
    have inside := slotCount_take_add_width_le hk
    rw [← realizes.size_eq, Component.width, hdouble, if_neg Bool.false_ne_true] at inside
    let own : Fin w.size := ⟨slotCount (components.take k), inside⟩
    have placed : w.place? c.name = some (.single own) :=
      realizes.names k c hk _ _ (.single hdouble rfl)
    obtain rfl : slot = own := by simpa [h] using placed
    cases realizes.fills k c hk with
    | single _ _ slot =>
      rw [get_eq_of_getElem? slot]
      exact ⟨rfl, .inl rfl⟩
    | double double _ _ _ =>
      rw [hdouble] at double
      cases double
  | true =>
    obtain ⟨low, high, -, at_slots⟩ := exists_doubleAt hw hk hdouble
    rw [if_pos hdouble, List.mem_cons, List.mem_pair] at hname
    obtain rfl | rfl | rfl := hname
    · rw [at_slots.place] at h
      cases h
    · rw [at_slots.lowPlace] at h
      cases h
      rw [at_slots.lowSlot]
      exact ⟨rfl, .inr ⟨c, hc, rfl⟩⟩
    · rw [at_slots.highPlace] at h
      cases h
      rw [at_slots.highSlot]
      exact ⟨rfl, .inl rfl⟩

theorem exists_doubleAt_pair {first second : Component} (hfirst : first ∈ components)
    (hsecond : second ∈ components) (doubleFirst : first.double = true)
    (doubleSecond : second.double = true) (distinct : first.name ≠ second.name) :
    ∃ low high low' high', w.DoubleAt first low high ∧ w.DoubleAt second low' high' ∧
      [low, high, low', high'].Nodup := by
  obtain ⟨k, hk⟩ := List.getElem?_of_mem hfirst
  obtain ⟨k', hk'⟩ := List.getElem?_of_mem hsecond
  obtain ⟨low, high, hlow, at_first⟩ := exists_doubleAt hw hk doubleFirst
  obtain ⟨low', high', hlow', at_second⟩ := exists_doubleAt hw hk' doubleSecond
  refine ⟨low, high, low', high', at_first, at_second, ?_⟩
  have hhigh := at_first.adjacent
  have hhigh' := at_second.adjacent
  have hne : k ≠ k' := by
    rintro rfl
    rw [hk] at hk'
    exact distinct (congrArg Component.name (Option.some.inj hk'))
  have apart : low.val + 2 ≤ low'.val ∨ low'.val + 2 ≤ low.val := by
    rcases Nat.lt_or_gt_of_ne hne with hlt | hlt
    · have before := slotCount_take_add_width_le_take hk hlt
      rw [Component.width, doubleFirst, if_pos rfl] at before
      omega
    · have before := slotCount_take_add_width_le_take hk' hlt
      rw [Component.width, doubleSecond, if_pos rfl] at before
      omega
  simp only [List.nodup_cons, List.mem_cons, List.not_mem_nil, or_false, Fin.ext_iff]
  grind

end Placed

end BusMachine.Wiring
