import BusMachine.Proofs.Sequencer.Resolution
import BusMachine.Proofs.Wiring.Order

/-!
Microcode and the order of slots: it is accepted for both of two wirings that differ in the order of
their slots, and asserts corresponding lines.
-/

namespace BusMachine

variable {m n : Nat}

def Action.map (f : Fin m → Fin n) : Action m → Action n
  | .line slot signal => .line (f slot) signal
  | .halt => .halt
  | .literal value => .literal value

def Routine.map (f : Fin m → Fin n) (r : Routine m) : Routine n where
  condition := r.condition
  steps := r.steps.map (List.map (Action.map f))

@[simp] theorem Action.map_id : Action.map (id : Fin n → Fin n) = id := by
  funext a
  cases a <;> rfl

@[simp] theorem Routine.map_id : Routine.map (id : Fin n → Fin n) = id := by
  funext r
  simp [Routine.map]

theorem Place.targets_map (f : Fin m → Fin n) (place : Place m) (signal : Signal) :
    (place.map f).targets signal = (place.targets signal).map f := by
  cases place <;> cases signal <;> rfl

namespace Sequencer

variable {w w' : Wiring} {e : Fin w.size ≃ Fin w'.size}

/-- Two sequencers that do the same in two orders of the slots. -/
structure Reorders (e : Fin w.size ≃ Fin w'.size) (q : Sequencer w) (q' : Sequencer w') : Prop where
  tick : q'.tick = e q.tick
  instruction : q'.instruction = e q.instruction
  routines : ∀ opcode, q'.routines.get? opcode =
    (q.routines.get? opcode).map (List.map (Routine.map e))

theorem Reorders.refl (q : Sequencer w) : Reorders (Equiv.refl _) q q where
  tick := rfl
  instruction := rfl
  routines opcode := by simp

theorem Reorders.actions {q : Sequencer w} {q' : Sequencer w'} (h : Reorders e q q')
    (opcode step : Word) (flags : Flags) :
    q'.actions opcode step flags = (q.actions opcode step flags).map (Action.map e) := by
  have steps : ∀ r : Routine w.size,
      (r.map e).steps.getD step [] = (r.steps.getD step []).map (Action.map e) := by
    intro r
    rw [List.getD_eq_getElem?_getD, List.getD_eq_getElem?_getD, Routine.map, List.getElem?_map]
    cases r.steps[step]? <;> rfl
  unfold Sequencer.actions
  rw [h.routines]
  cases q.routines.get? opcode with
  | none => rfl
  | some own =>
    dsimp only [Option.map_some]
    rw [List.filter_map, List.flatMap_map, List.map_flatMap]
    simp only [steps]
    rfl

section Resolving

variable (h : w.Reorders w' e)
include h

theorem requireRole_map {role : String} {slot : Fin w.size}
    (hrole : requireRole w role = .ok slot) :
    requireRole w' role = .ok (e slot) := by
  rw [requireRole_eq_ok_iff] at hrole ⊢
  rw [h.places, hrole]
  rfl

theorem lines_map (slot : Fin w.size) :
    (w'.slots.get (e slot)).lines = (w.slots.get slot).lines := by
  rw [h.slots]
  rfl

theorem requireLine_map {slot : Fin w.size} {signal : Signal} {u : Unit}
    (hline : requireLine w slot signal = .ok u) : requireLine w' (e slot) signal = .ok () := by
  rw [requireLine_eq_ok_iff] at hline ⊢
  rw [lines_map h, hline]

theorem forM_requireLine_map {signal : Signal} {slots : List (Fin w.size)} {u : PUnit}
    (hlines : slots.forM (requireLine w · signal) = .ok u) :
    (slots.map e).forM (requireLine w' · signal) = .ok u := by
  rw [forM_requireLine_eq_ok_iff] at hlines ⊢
  intro moved hmoved
  obtain ⟨slot, hslot, rfl⟩ := List.mem_map.mp hmoved
  rw [lines_map h]
  exact hlines slot hslot

theorem resolveAction_map {named : NamedAction} {actions : List (Action w.size)}
    (hactions : resolveAction w named = .ok actions) :
    resolveAction w' named = .ok (actions.map (Action.map e)) := by
  cases named with
  | halt | literal value =>
    cases hactions
    rfl
  | line name signal =>
    simp only [resolveAction] at hactions ⊢
    rw [h.places]
    cases hplace : w.place? name with
    | none =>
      rw [hplace] at hactions
      cases hactions
    | some place =>
      rw [hplace] at hactions
      obtain ⟨_, hlines, hactions⟩ := bind_eq_ok_iff.mp hactions
      cases hactions
      have mapped := forM_requireLine_map h hlines
      rw [← Place.targets_map] at mapped
      refine bind_eq_ok_iff.mpr ⟨_, mapped, ?_⟩
      rw [Place.targets_map, List.map_map, List.map_map]
      rfl

theorem resolveStep_map {step : List NamedAction} {actions : List (Action w.size)}
    (hstep : resolveStep w step = .ok actions) :
    resolveStep w' step = .ok (actions.map (Action.map e)) := by
  obtain ⟨parts, hparts, rfl⟩ := resolveStep_ok_iff.mp hstep
  refine resolveStep_ok_iff.mpr ⟨parts.map (List.map (Action.map e)), ?_, List.map_flatten⟩
  exact List.forall₂_map_right_iff.mpr (hparts.imp fun _ _ => resolveAction_map h)

theorem resolveRoutine_map {set : InstructionSet} {named : NamedRoutine}
    {entry : Word × Routine w.size} (hroutine : resolveRoutine w set named = .ok entry) :
    resolveRoutine w' set named = .ok (entry.1, entry.2.map e) := by
  unfold resolveRoutine at hroutine ⊢
  split at hroutine
  · cases hroutine
  · obtain ⟨steps, hsteps, hroutine⟩ := bind_eq_ok_iff.mp hroutine
    cases hroutine
    refine bind_eq_ok_iff.mpr ⟨steps.map (List.map (Action.map e)), ?_, rfl⟩
    rw [mapM_eq_ok_iff] at hsteps ⊢
    exact List.forall₂_map_right_iff.mpr (hsteps.imp fun _ _ => resolveStep_map h)

omit h in
theorem routinesOf_map {routines : List (Word × Routine w.size)} {i : Instruction}
    {entry : Word × List (Routine w.size)} (hentry : routinesOf routines i = .ok entry) :
    routinesOf (routines.map fun r => (r.1, r.2.map e)) i =
      .ok (entry.1, entry.2.map (Routine.map e)) := by
  have own : ((routines.map fun r => (r.1, r.2.map e)).filter (·.1 == i.opcode)).map Prod.snd =
      ((routines.filter (·.1 == i.opcode)).map Prod.snd).map (Routine.map e) := by
    rw [List.filter_map, List.map_map, List.map_map]
    rfl
  have fault : ∀ own : List (Routine w.size),
      faultIn? i.name (own.map (Routine.map e)) = faultIn? i.name own := by
    intro own
    funext flags
    unfold faultIn?
    rw [List.countP_map]
    rfl
  unfold routinesOf at hentry ⊢
  dsimp only at hentry ⊢
  rw [own, List.isEmpty_map, fault]
  split at hentry
  · cases hentry
  · rename_i hsome
    rw [if_neg hsome]
    split at hentry
    · cases hentry
    · cases hentry
      rfl

theorem exists_reorders {set : InstructionSet} {microcode : List NamedRoutine} {q : Sequencer w}
    (hq : ofMicrocode w set microcode = .ok q) :
    ∃ q', ofMicrocode w' set microcode = .ok q' ∧ Reorders e q q' := by
  obtain ⟨tick, htick, hq⟩ := bind_eq_ok_iff.mp hq
  obtain ⟨instruction, hinstruction, hq⟩ := bind_eq_ok_iff.mp hq
  obtain ⟨_, hincr, hq⟩ := bind_eq_ok_iff.mp hq
  obtain ⟨routines, hroutines, hq⟩ := bind_eq_ok_iff.mp hq
  obtain ⟨chosen, hchosen, hq⟩ := bind_eq_ok_iff.mp hq
  cases hq
  have hroutines' : microcode.mapM (resolveRoutine w' set) =
      .ok (routines.map fun r => (r.1, r.2.map e)) := by
    rw [mapM_eq_ok_iff] at hroutines ⊢
    exact List.forall₂_map_right_iff.mpr (hroutines.imp fun _ _ => resolveRoutine_map h)
  have hchosen' : set.toList.mapM (routinesOf (routines.map fun r => (r.1, r.2.map e))) =
      .ok (chosen.map fun entry => (entry.1, entry.2.map (Routine.map e))) := by
    rw [mapM_eq_ok_iff] at hchosen ⊢
    exact List.forall₂_map_right_iff.mpr (hchosen.imp fun _ _ => routinesOf_map)
  refine ⟨_, bind_eq_ok_iff.mpr ⟨_, requireRole_map h htick,
    bind_eq_ok_iff.mpr ⟨_, requireRole_map h hinstruction,
      bind_eq_ok_iff.mpr ⟨_, requireLine_map h hincr,
        bind_eq_ok_iff.mpr ⟨_, hroutines', bind_eq_ok_iff.mpr ⟨_, hchosen', rfl⟩⟩⟩⟩⟩,
    rfl, rfl, fun opcode => ?_⟩
  rw [SparseTable.get?_ofList, SparseTable.get?_ofList, ← List.map_reverse]
  induction chosen.reverse with
  | nil => rfl
  | cons entry rest ih =>
    rw [List.map_cons, List.lookup_cons, List.lookup_cons]
    cases opcode == entry.1 with
    | true => rfl
    | false => exact ih

end Resolving

end Sequencer

end BusMachine
