import BusMachine.Proofs.Datapath.Renumbering
import BusMachine.Proofs.Standard.Progress

/-!
The standard machine does not depend on the order of its components. Every cycle of it performs a
transfer, the lines of a transfer are orderly, and so machines over two orders of the components
look alike from outside tick after tick.
-/

namespace BusMachine

namespace Standard

open Datapath

theorem exists_transfer (opcode step : Word) (flags : Flags) :
    ∃ t : Transfer, asserts (sequencer.actions opcode step flags) = t.asserted := by
  have idle : asserts [] = ({} : Transfer).asserted := by decide
  cases hm : meaningOf? opcode with
  | none => exact ⟨{}, by rw [actions_of_meaningOf?_none hm, idle]⟩
  | some meaning =>
    obtain ⟨i, -, rfl, carried⟩ := exists_of_meaningOf? hm
    cases hstep : (meaning.steps flags)[step]? with
    | some t => exact ⟨t, carried.asserts_eq flags step t hstep⟩
    | none =>
      have behind := List.getElem?_eq_none_iff.mp hstep
      have counted := carried.count_eq flags
      rw [Sequencer.stepCount?_eq] at counted
      obtain ⟨routine, hroutine, hlength⟩ := Option.map_eq_some_iff.mp counted
      have nothing : routine.steps.getD step [] = [] := by
        rw [List.getD_eq_getElem?_getD, List.getElem?_eq_none (hlength ▸ behind)]
        rfl
      exact ⟨{}, by rw [Sequencer.actions_eq_getD ofMicrocode_eq hroutine, nothing, idle]⟩

theorem orderly_transfer (t : Transfer) : wiring.Orderly t.asserted.active where
  drives i j hi hj := by
    rw [active_asserted] at hi hj
    exact Option.some.inj ((eq_of_beq hi).symm.trans (eq_of_beq hj))
  latches i j hi hj := by
    rw [active_asserted] at hi hj
    exact Option.some.inj ((eq_of_beq hi).symm.trans (eq_of_beq hj))
  counts i _ := by
    have carries : ∀ i, (wiring.slots.get i).carryInto = none := by decide
    exact carries i
  apart i j hi _ := by
    have unread : ∀ j, tickSlot ∉ (wiring.slots.get j).kind.reads ∧
        pcSlot ∉ (wiring.slots.get j).kind.reads := by decide
    rw [active_asserted] at hi
    have counts : i = tickSlot ∨ t.advance = true ∧ i = pcSlot := by
      simpa [Transfer.linesAt] using hi
    obtain rfl | ⟨-, rfl⟩ := counts
    · exact (unread j).1
    · exact (unread j).2

theorem orderly_asserted {params : Parameters} {valid : params.Valid} {δ : Type}
    (d : Datapath (circuit params valid) δ) : wiring.Orderly (sequencer.asserted d).active := by
  obtain ⟨t, ht⟩ := exists_transfer (d.values.get sequencer.instruction)
    (d.values.get sequencer.tick) d.flags
  have active : (sequencer.asserted d).active = t.asserted.active := by
    unfold Sequencer.asserted
    rw [sequencer_tick, sequencer_instruction] at *
    rw [assertAll_actions, ht]
    rfl
  rw [active]
  exact orderly_transfer t

theorem resolvable : Wiring.Resolvable standardComponents where
  single := by decide
  nodup := by decide
  unreserved := by decide
  served := by decide
  known := by decide

theorem exists_name : ∀ i : Fin wiring.size, ∃ name, wiring.place? name = some (.single i) := by
  have named : ∀ i : Fin wiring.size,
      wiring.place? (wiring.slots.get i).name = some (.single i) := by
    decide +kernel
  exact fun i => ⟨_, named i⟩

theorem resolved : Wiring.Resolved standardComponents wiring := by
  obtain ⟨w, hw, resolved⟩ := resolvable.exists_resolved
  obtain rfl : wiring = w := Except.ok.inj (ofComponents_eq.symm.trans hw)
  exact resolved

theorem exists_architecture {params : Parameters} (valid : params.Valid)
    (hsize : 46 ≤ params.wordSize) {components : List Component}
    (hperm : components.Perm standardComponents) :
    ∃ (w : Wiring) (q : Sequencer w) (e : Fin wiring.size ≃ Fin w.size),
      Architecture.build params components standardInstructions standardMicrocode =
          .ok { toCircuit := ⟨params, valid, w⟩, instructions := instructionSet, sequencer := q } ∧
        wiring.Reorders w e ∧ Sequencer.Reorders e sequencer q := by
  obtain ⟨w, hw, hresolved⟩ := (resolvable.perm hperm).exists_resolved
  obtain ⟨e, hslots⟩ := resolved.exists_reorders resolvable hperm hresolved
  obtain ⟨q, hq, hroutines⟩ := Sequencer.exists_reorders hslots ofMicrocode_eq
  refine ⟨w, q, e, Architecture.build_ok_iff.mpr ?_, hslots, hroutines⟩
  exact ⟨rfl, hw, ofList_eq, opcode_lt_iff.mpr hsize, hq⟩

theorem sameByName_new {δ δ' : Type} [Device δ] [Device δ'] {params : Parameters}
    {arch arch' : Architecture} (h : Architecture.standard params = .ok arch)
    {components : List Component} (hperm : components.Perm standardComponents)
    (hbuild : Architecture.build params components standardInstructions standardMicrocode =
      .ok arch') :
    (Machine.new arch : Machine arch δ).datapath.SameByName
      (Machine.new arch' : Machine arch' δ').datapath := by
  obtain ⟨valid, hsize, rfl⟩ := standard_ok_iff.mp h
  obtain ⟨w, q, e, hother, hslots, -⟩ := exists_architecture valid hsize hperm
  obtain rfl := Except.ok.inj (hbuild.symm.trans hother)
  exact resembles_initial.sameByName hslots

/-- The components of the standard machine may be declared in any order. From states with the same
contents, machines over two orders have the same contents tick after tick, report the same, leave
the same word on the bus and use their ports alike. -/
theorem order_irrelevant {params : Parameters} {arch : Architecture}
    (h : Architecture.standard params = .ok arch) {components : List Component}
    (hperm : components.Perm standardComponents) :
    ∃ arch' : Architecture,
      Architecture.build params components standardInstructions standardMicrocode = .ok arch' ∧
        ∀ {δ δ' : Type} [Device δ] [Device δ'] (m : Machine arch δ) (m' : Machine arch' δ'),
          m.datapath.SameByName m'.datapath → ∀ count,
            (m.after count).datapath.SameByName (m'.after count).datapath ∧
              (m.after count).observe = (m'.after count).observe := by
  obtain ⟨valid, hsize, rfl⟩ := standard_ok_iff.mp h
  obtain ⟨w, q, e, hbuild, hslots, hroutines⟩ := exists_architecture valid hsize hperm
  refine ⟨_, hbuild, fun m m' hsame count => ?_⟩
  have start := SameByName.resembles hslots exists_name hsame
  have reached := hroutines.cycles hslots orderly_asserted start count
  have ⟨_, observed⟩ := hroutines.cycle hslots reached (orderly_asserted _)
  rw [Machine.observe_eq, Machine.observe_eq, Machine.datapath_after, Machine.datapath_after]
  exact ⟨reached.sameByName hslots, observed⟩

theorem order_irrelevant_reverse :
    standardComponents.reverse.Perm standardComponents ∧
      ∃ arch' : Architecture,
        Architecture.build {} standardComponents.reverse standardInstructions standardMicrocode =
            .ok arch' ∧
          ∀ count, ((Machine.new defaultArchitecture : Machine _ QueueDevice).after count).observe =
            ((Machine.new arch' : Machine _ QueueDevice).after count).observe := by
  have hperm := List.reverse_perm standardComponents
  obtain ⟨arch', hbuild, alike⟩ := order_irrelevant standard_default hperm
  have start : (Machine.new defaultArchitecture : Machine _ QueueDevice).datapath.SameByName
      (Machine.new arch' : Machine arch' QueueDevice).datapath :=
    sameByName_new standard_default hperm hbuild
  exact ⟨hperm, arch', hbuild, fun count => (alike _ _ start count).2⟩

end Standard

end BusMachine
