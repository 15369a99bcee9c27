import BusMachine.Proofs.Sequencer.Cycles
import Mathlib.Data.Nat.Find

/-!
Runs from one instruction to another. An instruction begins when its first step is due, and a
segment is the list of the instructions that begin between two such moments.
-/

namespace BusMachine

/-- An instruction that was carried out: the datapath at its first step and the one at the first
step of the next instruction. -/
structure Passage (c : Circuit) (δ : Type) where
  before : Datapath c δ
  after : Datapath c δ

namespace Sequencer

variable {c : Circuit} {δ : Type}

def Begins (q : Sequencer c.wiring) (d : Datapath c δ) : Prop := d.values.get q.tick = 0

instance (q : Sequencer c.wiring) (d : Datapath c δ) : Decidable (q.Begins d) :=
  inferInstanceAs (Decidable (d.values.get q.tick = 0))

variable [Device δ]

/-- An instruction begins after `count` cycles, and none before. -/
structure Returns (q : Sequencer c.wiring) (d : Datapath c δ) (count : Nat) : Prop where
  pos : 0 < count
  begins : q.Begins (q.cycles count d)
  inner : ∀ k, 0 < k → k < count → ¬q.Begins (q.cycles k d)

/-- The instructions that are carried out between two datapaths at which instructions begin. -/
inductive Segment (q : Sequencer c.wiring) :
    Datapath c δ → List (Passage c δ) → Datapath c δ → Prop
  | nil {d : Datapath c δ} (h : q.Begins d) : Segment q d [] d
  | cons {d d' : Datapath c δ} {passages : List (Passage c δ)} (h : q.Begins d) {count : Nat}
      (hreturns : q.Returns d count) (hrest : Segment q (q.cycles count d) passages d') :
      Segment q d (⟨d, q.cycles count d⟩ :: passages) d'

variable {q : Sequencer c.wiring} {d d' : Datapath c δ} {passages : List (Passage c δ)}

theorem begins_cycles_beginCycle {count : Nat} :
    q.Begins (q.cycles count d.beginCycle) ↔ q.Begins (q.cycles count d) := by
  cases count with
  | zero => rfl
  | succ count => rw [cycles_succ, cycles_succ, cycle_cycles_beginCycle]

theorem returns_beginCycle {count : Nat} : q.Returns d.beginCycle count ↔ q.Returns d count := by
  constructor <;> rintro ⟨pos, begins, inner⟩
  · refine ⟨pos, begins_cycles_beginCycle.mp begins, fun k hpos hlt hbegins => ?_⟩
    exact inner k hpos hlt (begins_cycles_beginCycle.mpr hbegins)
  · refine ⟨pos, begins_cycles_beginCycle.mpr begins, fun k hpos hlt hbegins => ?_⟩
    exact inner k hpos hlt (begins_cycles_beginCycle.mp hbegins)

theorem exists_returns {count : Nat} (hpos : 0 < count) (h : q.Begins (q.cycles count d)) :
    ∃ first ≤ count, q.Returns d first := by
  have later : ∃ k, 0 < k ∧ q.Begins (q.cycles k d) := ⟨count, hpos, h⟩
  have ⟨pos, begins⟩ := Nat.find_spec later
  refine ⟨Nat.find later, Nat.find_min' later ⟨hpos, h⟩, pos, begins, fun k hk hlt hbegins => ?_⟩
  exact Nat.find_min later hlt ⟨hk, hbegins⟩

theorem exists_segment (h : q.Begins d) (count : Nat) (hcount : q.Begins (q.cycles count d)) :
    ∃ passages, q.Segment d passages (q.cycles count d) := by
  induction count using Nat.strong_induction_on generalizing d with
  | _ count ih =>
    obtain rfl | hpos := Nat.eq_zero_or_pos count
    · exact ⟨[], .nil h⟩
    · obtain ⟨first, hle, hreturns⟩ := exists_returns hpos hcount
      obtain ⟨rest, rfl⟩ := Nat.exists_eq_add_of_le hle
      have hfirst := hreturns.pos
      rw [cycles_add] at hcount ⊢
      obtain ⟨passages, hpassages⟩ := ih rest (by omega) hreturns.begins hcount
      exact ⟨_, .cons h hreturns hpassages⟩

theorem Segment.begins (h : q.Segment d passages d') : q.Begins d := by
  cases h with
  | nil h => exact h
  | cons h _ _ => exact h

theorem Segment.ends (h : q.Segment d passages d') : q.Begins d' := by
  induction h with
  | nil h => exact h
  | cons _ _ _ ih => exact ih

theorem Segment.concat {count : Nat} (h : q.Segment d passages d') (hcount : q.Returns d' count) :
    q.Segment d (passages ++ [⟨d', q.cycles count d'⟩]) (q.cycles count d') := by
  induction h with
  | nil hbegins => exact .cons hbegins hcount (.nil hcount.begins)
  | cons hbegins hreturns _ ih => exact .cons hbegins hreturns (ih hcount)

theorem Segment.of_concat {p : Passage c δ}
    (h : q.Segment d (passages ++ [p]) d') :
    q.Segment d passages p.before ∧ d' = p.after ∧
      ∃ count, q.Returns p.before count ∧ p.after = q.cycles count p.before := by
  induction passages generalizing d with
  | nil =>
    cases h with
    | cons h hreturns hrest =>
      cases hrest with
      | nil _ => exact ⟨.nil h, rfl, _, hreturns, rfl⟩
  | cons first rest ih =>
    cases h with
    | cons h hreturns hrest =>
      have ⟨hsegment, hlast⟩ := ih hrest
      exact ⟨.cons h hreturns hsegment, hlast⟩

theorem Segment.of_append {more : List (Passage c δ)}
    (h : q.Segment d (passages ++ more) d') :
    ∃ between, q.Segment d passages between ∧ q.Segment between more d' := by
  induction passages generalizing d with
  | nil => exact ⟨d, .nil h.begins, h⟩
  | cons first rest ih =>
    cases h with
    | cons h hreturns hrest =>
      have ⟨between, hfirst, hmore⟩ := ih hrest
      exact ⟨between, .cons h hreturns hfirst, hmore⟩

end Sequencer

end BusMachine
