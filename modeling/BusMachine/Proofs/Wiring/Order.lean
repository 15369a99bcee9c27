import BusMachine.Proofs.Wiring.Acceptance
import Mathlib.Data.List.NodupEquivFin

/-!
The order of a component list. Components of one word each, with distinct names and with references
among them, are accepted in every order, and the slots of two orders correspond to each other.
-/

namespace BusMachine

section Renumbering

variable {m n : Nat}

def Place.map (f : Fin m → Fin n) : Place m → Place n
  | .single slot => .single (f slot)
  | .double low high => .double (f low) (f high)

def SlotKind.map (f : Fin m → Fin n) : SlotKind m → SlotKind n
  | .register => .register
  | .memory address => .memory (address.map f)
  | .port selector => .port (selector.map f)
  | .adder lhs rhs => .adder (f lhs) (f rhs)
  | .subtractor lhs rhs => .subtractor (f lhs) (f rhs)

def Slot.map (f : Fin m → Fin n) (s : Slot m) : Slot n where
  name := s.name
  kind := s.kind.map f
  lines := s.lines
  carryInto := s.carryInto.map f

@[simp] theorem Place.map_id (place : Place n) : place.map id = place := by
  cases place <;> rfl

@[simp] theorem SlotKind.map_id (kind : SlotKind n) : kind.map id = kind := by
  cases kind <;> simp [SlotKind.map]

@[simp] theorem Slot.map_id (s : Slot n) : s.map id = s := by
  simp [Slot.map]

end Renumbering

namespace Wiring

/-- Two wirings that differ in the order of their slots only. -/
structure Reorders (w w' : Wiring) (e : Fin w.size ≃ Fin w'.size) : Prop where
  slots : ∀ i, w'.slots.get (e i) = (w.slots.get i).map e
  places : ∀ name, w'.place? name = (w.place? name).map (Place.map e)

theorem Reorders.refl (w : Wiring) : w.Reorders w (Equiv.refl _) where
  slots i := by simp
  places name := by
    have same : Place.map (id : Fin w.size → Fin w.size) = id := funext Place.map_id
    simp [same]

def references : Component.Kind → List String
  | .register => []
  | .memory name | .port name => [name]
  | .adder lhs rhs | .subtractor lhs rhs => [lhs, rhs]

/-- Components of one word each that can be resolved in any order. -/
structure Resolvable (components : List Component) : Prop where
  single : ∀ component ∈ components, component.double = false
  nodup : (components.map Component.name).Nodup
  unreserved : ∀ component ∈ components, component.name ≠ reservedName
  served : ∀ component ∈ components, ∀ line ∈ component.lines.toList,
    component.kind.servedLines.contains line = true
  known : ∀ component ∈ components, ∀ name ∈ references component.kind,
    name ∈ components.map Component.name

theorem Resolvable.perm {components components' : List Component} (h : Resolvable components)
    (hperm : components'.Perm components) : Resolvable components' where
  single component hmem := h.single component (hperm.mem_iff.mp hmem)
  nodup := (hperm.map Component.name).nodup_iff.mpr h.nodup
  unreserved component hmem := h.unreserved component (hperm.mem_iff.mp hmem)
  served component hmem := h.served component (hperm.mem_iff.mp hmem)
  known component hmem name hname :=
    (hperm.map Component.name).mem_iff.mpr (h.known component (hperm.mem_iff.mp hmem) name hname)

/-- A wiring with one slot for each component, in the same order. -/
structure Resolved (components : List Component) (w : Wiring) : Prop where
  size_eq : w.size = components.length
  place : ∀ (i : Fin w.size) (component : Component), components[i.val]? = some component →
    w.place? component.name = some (.single i)
  unknown : ∀ name, name ∉ components.map Component.name → w.place? name = none
  slot : ∀ (i : Fin w.size) (component : Component), components[i.val]? = some component →
    resolveSingle w.names component = .ok (w.slots.get i)

theorem slotCount_of_single {components : List Component}
    (hsingle : ∀ component ∈ components, component.double = false) :
    slotCount components = components.length := by
  induction components with
  | nil => rfl
  | cons first rest ih =>
    rw [slotCount, Component.width, hsingle first List.mem_cons_self,
      ih fun component hmem => hsingle component (List.mem_cons_of_mem _ hmem), List.length_cons]
    exact Nat.add_comm _ _

theorem Resolvable.declaredNames_eq {components : List Component} (h : Resolvable components) :
    components.flatMap Component.declaredNames = components.map Component.name ∧
      components.flatMap Component.wordNames = components.map Component.name := by
  rw [List.map_eq_flatMap]
  constructor <;> refine List.flatMap_congr fun c hc => ?_
  · rw [Component.declaredNames, h.single c hc]
    rfl
  · rw [Component.wordNames, h.single c hc]
    rfl

theorem Resolvable.wellFormed {components : List Component} (h : Resolvable components) :
    WellFormed components where
  nodup := h.declaredNames_eq.1 ▸ h.nodup
  unreserved hmem := by
    rw [h.declaredNames_eq.1] at hmem
    obtain ⟨c, hc, hname⟩ := List.mem_map.mp hmem
    exact h.unreserved c hc hname
  double_register c hc double := absurd (double.symm.trans (h.single c hc)) (by simp)
  admitted c hc := Component.Kind.admits_iff.mpr (h.served c hc)
  known c hc := by
    have listed := h.known c hc
    unfold Component.Kind.Known
    rw [h.declaredNames_eq.1, h.declaredNames_eq.2]
    cases hkind : c.kind with
    | register => trivial
    | memory name | port name | adder lhs rhs | subtractor lhs rhs =>
      rw [hkind] at listed
      simpa [references] using listed

theorem Resolvable.exists_resolved {components : List Component} (h : Resolvable components) :
    ∃ w, ofComponents components = .ok w ∧ Resolved components w := by
  obtain ⟨w, hw⟩ := exists_ofComponents_iff.mpr h.wellFormed
  have realized := realizes_of_ofComponents hw
  have size_eq : w.size = components.length :=
    realized.size_eq.trans (slotCount_of_single h.single)
  have position : ∀ i : Fin w.size, slotCount (components.take i) = i := by
    intro i
    rw [slotCount_of_single fun c hc => h.single c (List.mem_of_mem_take hc), List.length_take]
    exact Nat.min_eq_left (size_eq ▸ i.isLt.le)
  refine ⟨w, hw, size_eq, fun i c hi => ?_, fun name hname => ?_, fun i c hi => ?_⟩
  · exact realized.names i c hi _ _
      (.single (h.single c (List.mem_of_getElem? hi)) (position i).symm)
  · exact realized.undeclared name (h.declaredNames_eq.1 ▸ hname)
  · have filled := realized.fills i c hi
    rw [position i] at filled
    cases filled with
    | single single resolves slot =>
      have here : w.toList[i.val]? = some (w.slots.get i) := by simp [toList, Vector.get]
      exact resolveSingle_eq_ok_iff.mpr ⟨Component.Kind.admits_iff.mpr
        (h.served c (List.mem_of_getElem? hi)), _, resolves, Option.some.inj (here.symm.trans slot)⟩
    | double double =>
      rw [h.single c (List.mem_of_getElem? hi)] at double
      cases double

theorem exists_equiv_of_perm {components components' : List Component}
    (hnodup : components.Nodup) (hperm : components'.Perm components) {m n : Nat}
    (hm : m = components.length) (hn : n = components'.length) :
    ∃ e : Fin m ≃ Fin n, ∀ (i : Fin m) (component : Component),
      components[i.val]? = some component → components'[(e i).val]? = some component := by
  subst hm hn
  have hnodup' : components'.Nodup := hperm.nodup_iff.mpr hnodup
  refine ⟨(hnodup.getEquiv components).trans
    ((Equiv.subtypeEquivRight fun component => hperm.mem_iff.symm).trans
      (hnodup'.getEquiv components').symm), fun i component hi => ?_⟩
  have here : components.get i = component := (List.getElem?_eq_some_iff.mp hi).2
  have member : component ∈ components' := hperm.mem_iff.mpr (here ▸ List.get_mem components i)
  have moved := (hnodup'.getEquiv components').apply_symm_apply ⟨component, member⟩
  rw [List.getElem?_eq_some_iff]
  subst here
  exact ⟨Fin.isLt _, congrArg Subtype.val moved⟩

section Reordering

variable {m n : Nat} {e : Fin m → Fin n} {names : List (String × Place m)}
  {names' : List (String × Place n)}
  (hnames : ∀ name, names'.lookup name = (names.lookup name).map (Place.map e))
include hnames

theorem lookup_map {name : String} {place : Place m} (h : lookup names name = .ok place) :
    lookup names' name = .ok (place.map e) := by
  rw [lookup_eq_ok_iff] at h ⊢
  rw [hnames, h]
  rfl

theorem lookupSlot_map {name : String} {slot : Fin m} (h : lookupSlot names name = .ok slot) :
    lookupSlot names' name = .ok (e slot) := by
  rw [lookupSlot_eq_ok_iff] at h ⊢
  rw [hnames, h]
  rfl

theorem resolveKind_map {kind : Component.Kind} {resolved : SlotKind m}
    (h : resolveKind names kind = .ok resolved) :
    resolveKind names' kind = .ok (resolved.map e) := by
  cases kind with
  | register =>
    cases h
    rfl
  | memory name | port name =>
    obtain ⟨place, hplace, h⟩ := bind_eq_ok_iff.mp h
    cases h
    exact bind_eq_ok_iff.mpr ⟨_, lookup_map hnames hplace, rfl⟩
  | adder lhs rhs | subtractor lhs rhs =>
    obtain ⟨l, hl, h⟩ := bind_eq_ok_iff.mp h
    obtain ⟨r, hr, h⟩ := bind_eq_ok_iff.mp h
    cases h
    exact bind_eq_ok_iff.mpr ⟨_, lookupSlot_map hnames hl,
      bind_eq_ok_iff.mpr ⟨_, lookupSlot_map hnames hr, rfl⟩⟩

theorem resolveSingle_map {component : Component} {slot : Slot m}
    (h : resolveSingle names component = .ok slot) :
    resolveSingle names' component = .ok (slot.map e) := by
  unfold resolveSingle at h ⊢
  split at h
  · cases h
  · obtain ⟨kind, hkind, h⟩ := bind_eq_ok_iff.mp h
    cases h
    exact bind_eq_ok_iff.mpr ⟨_, resolveKind_map hnames hkind, rfl⟩

end Reordering

theorem Resolved.exists_reorders {components components' : List Component} {w w' : Wiring}
    (h : Resolvable components) (hperm : components'.Perm components)
    (hw : Resolved components w) (hw' : Resolved components' w') :
    ∃ e, Reorders w w' e := by
  obtain ⟨e, he⟩ := exists_equiv_of_perm (List.Nodup.of_map _ h.nodup) hperm hw.size_eq hw'.size_eq
  have exists_component : ∀ i : Fin w.size, ∃ component, components[i.val]? = some component := by
    intro i
    exact ⟨_, List.getElem?_eq_getElem (hw.size_eq ▸ i.isLt)⟩
  have places : ∀ name, w'.place? name = (w.place? name).map (Place.map e) := by
    intro name
    by_cases hname : name ∈ components.map Component.name
    · obtain ⟨component, hmem, rfl⟩ := List.mem_map.mp hname
      obtain ⟨k, hk⟩ := List.getElem?_of_mem hmem
      have hlt : k < w.size := hw.size_eq ▸ (List.getElem?_eq_some_iff.mp hk).1
      rw [hw.place ⟨k, hlt⟩ component hk,
         hw'.place (e ⟨k, hlt⟩) component (he ⟨k, hlt⟩ component hk)]
      rfl
    · have hname' : name ∉ components'.map Component.name :=
        fun hmem => hname ((hperm.map _).mem_iff.mp hmem)
      rw [hw.unknown name hname, hw'.unknown name hname']
      rfl
  refine ⟨e, fun i => ?_, places⟩
  obtain ⟨component, hi⟩ := exists_component i
  have mapped := resolveSingle_map places (hw.slot i component hi)
  rw [hw'.slot (e i) component (he i component hi)] at mapped
  exact Except.ok.inj mapped

end Wiring

end BusMachine
