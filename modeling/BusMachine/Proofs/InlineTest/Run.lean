import BusMachine.InlineTest.Run
import BusMachine.Proofs.Machine.Drive

/-!
What a run of test blocks reports. Block after block takes the machine up to its next halt and is
judged there, so the result with the number `i` speaks of the machine behind `i + 1` runs. A block
that meets no halt ends the report, and what cannot be looked up does not hold.
-/

namespace BusMachine

namespace Machine

variable {arch : Architecture} {δ : Type} [Device δ]

/-- The cycle with the number `ticks`, counted from 1, is the first one that asks for a halt, and it
lies within the budget. -/
structure HaltsIn (m : Machine arch δ) (budget ticks : Nat) : Prop where
  pos : 0 < ticks
  le_budget : ticks ≤ budget
  halts : arch.sequencer.haltsAt m.datapath (ticks - 1) = true
  quiet : ∀ k, k + 1 < ticks → arch.sequencer.haltsAt m.datapath k = false

theorem HaltsIn.unique {m : Machine arch δ} {budget first second : Nat}
    (h : m.HaltsIn budget first) (h' : m.HaltsIn budget second) : first = second := by
  have later : ∀ {a b : Nat}, m.HaltsIn budget a → m.HaltsIn budget b → ¬ a < b := by
    intro a b ha hb hlt
    have quiet := hb.quiet (a - 1) (by have := ha.pos; omega)
    rw [ha.halts] at quiet
    cases quiet
  have := later h h'
  have := later h' h
  omega

theorem haltsIn_succ {m : Machine arch δ} (hquiet : m.tick.1.halted = false) {budget ticks : Nat}
    (h : m.tick.2.HaltsIn budget ticks) : m.HaltsIn (budget + 1) (1 + ticks) := by
  have hpos := h.pos
  have hhalts := h.halts
  rw [haltsAt_tick] at hhalts
  refine ⟨by omega, by have := h.le_budget; omega, ?_, fun k hk => ?_⟩
  · rw [show 1 + ticks - 1 = ticks - 1 + 1 by omega]
    exact hhalts
  · cases k with
    | zero => exact hquiet
    | succ k =>
      rw [← haltsAt_tick]
      exact h.quiet k (by omega)

theorem runToHalt_spec (m : Machine arch δ) (budget : Nat) :
    (∃ ticks, (m.runToHalt budget).1 = .halted ticks ∧ m.HaltsIn budget ticks) ∨
      (m.runToHalt budget).1 = .budgetExhausted ∧
        ∀ k < budget, arch.sequencer.haltsAt m.datapath k = false := by
  induction budget generalizing m with
  | zero => exact .inr ⟨rfl, by omega⟩
  | succ budget ih =>
    rw [runToHalt_succ]
    cases hhalt : m.tick.1.halted with
    | true => exact .inl ⟨1, by simp, Nat.one_pos, by omega, hhalt, by omega⟩
    | false =>
      rw [if_neg Bool.false_ne_true]
      have rest := ih m.tick.2
      cases hrun : m.tick.2.runToHalt budget with
      | mk result m' =>
        rw [hrun] at rest
        rcases rest with ⟨ticks, rfl, h⟩ | ⟨rfl, h⟩
        · exact .inl ⟨1 + ticks, rfl, haltsIn_succ hhalt h⟩
        · refine .inr ⟨rfl, fun k hk => ?_⟩
          cases k with
          | zero => exact hhalt
          | succ k =>
            rw [← haltsAt_tick]
            exact h k (by omega)

theorem runToHalt_eq_halted {m : Machine arch δ} {budget ticks : Nat} :
    (m.runToHalt budget).1 = .halted ticks ↔ m.HaltsIn budget ticks := by
  rcases m.runToHalt_spec budget with ⟨first, hrun, h⟩ | ⟨hrun, hquiet⟩
  · rw [hrun, RunResult.halted.injEq]
    constructor
    · rintro rfl
      exact h
    · exact h.unique
  · rw [hrun]
    refine ⟨by simp, fun h => ?_⟩
    have := hquiet (ticks - 1) (by have := h.pos; have := h.le_budget; omega)
    rw [h.halts] at this
    cases this

def afterRuns (budget count : Nat) (m : Machine arch δ) : Machine arch δ :=
  (fun m => (m.runToHalt budget).2)^[count] m

@[simp] theorem afterRuns_zero (budget : Nat) (m : Machine arch δ) : m.afterRuns budget 0 = m := rfl

theorem afterRuns_succ (budget count : Nat) (m : Machine arch δ) :
    m.afterRuns budget (count + 1) = (m.runToHalt budget).2.afterRuns budget count :=
  Function.iterate_succ_apply _ _ _

end Machine

namespace InlineTest

variable {arch : Architecture} {δ : Type}

inductive WrittenValue.Denotes (annotations : Annotations) : WrittenValue → Int → Prop
  | literal (n : Int) : Denotes annotations (.literal n) n
  | label {name : String} {address : Word} (known : annotations.address? name = some address) :
    Denotes annotations (.label name) address

inductive Subject.Shows (annotations : Annotations) (d : Datapath arch.toCircuit δ) :
    Subject → Int → Prop
  | component {name : String} {place : Place arch.size}
    (known : arch.wiring.place? name = some place) :
    Shows annotations d (.component name) (d.valueAt place)
  | memory {written : WrittenValue} {address : Nat} (named : written.Denotes annotations address)
    (inside : address < arch.memorySize) :
    Shows annotations d (.memory written) d.memory[address]

def Comparison.Relates : Comparison → Int → Int → Prop
  | .equal, a, b => a = b
  | .notEqual, a, b => a ≠ b

theorem Comparison.holds_iff (comparison : Comparison) (a b : Int) :
    comparison.holds a b = true ↔ comparison.Relates a b := by
  cases comparison <;> simp [holds, Relates]

/-- Both sides of an assertion can be looked up, and they compare as it says. -/
def Assertion.Holds (annotations : Annotations) (d : Datapath arch.toCircuit δ) (a : Assertion) :
    Prop :=
  ∃ actual expected, a.subject.Shows annotations d actual ∧
    a.expected.Denotes annotations expected ∧ a.comparison.Relates actual expected

@[simp] theorem WrittenValue.denotes_literal {annotations : Annotations} {k n : Int} :
    Denotes annotations (.literal k) n ↔ k = n := by
  constructor
  · intro h
    cases h with
    | literal => rfl
  · rintro rfl
    exact .literal k

@[simp] theorem WrittenValue.denotes_label {annotations : Annotations} {name : String} {n : Int} :
    Denotes annotations (.label name) n ↔
      ∃ address : Word, annotations.address? name = some address ∧ (address : Int) = n := by
  constructor
  · intro h
    cases h with
    | label known => exact ⟨_, known, rfl⟩
  · rintro ⟨address, known, rfl⟩
    exact .label known

@[simp] theorem Subject.shows_component {annotations : Annotations}
    {d : Datapath arch.toCircuit δ} {name : String} {n : Int} :
    Shows annotations d (.component name) n ↔
      ∃ place, arch.wiring.place? name = some place ∧ (d.valueAt place : Int) = n := by
  constructor
  · intro h
    cases h with
    | component known => exact ⟨_, known, rfl⟩
  · rintro ⟨place, known, rfl⟩
    exact .component known

@[simp] theorem Subject.shows_memory {annotations : Annotations}
    {d : Datapath arch.toCircuit δ} {written : WrittenValue} {n : Int} :
    Shows annotations d (.memory written) n ↔
      ∃ (address : Nat) (inside : address < arch.memorySize),
        written.Denotes annotations address ∧ (d.memory[address] : Int) = n := by
  constructor
  · intro h
    cases h with
    | memory named inside => exact ⟨_, inside, named, rfl⟩
  · rintro ⟨address, inside, named, rfl⟩
    exact .memory named inside

theorem WrittenValue.value_eq_ok {annotations : Annotations} {written : WrittenValue} {n : Int} :
    written.value annotations = .ok n ↔ written.Denotes annotations n := by
  cases written with
  | literal k => simp [value]
  | label name => cases known : annotations.address? name <;> simp [value, known]

theorem Subject.value_eq_ok {annotations : Annotations} {d : Datapath arch.toCircuit δ}
    {subject : Subject} {n : Int} :
    subject.value annotations d = .ok n ↔ subject.Shows annotations d n := by
  cases subject with
  | component name =>
    cases known : arch.wiring.place? name <;> simp [value, Datapath.valueOf, known]
  | memory written =>
    cases named : written.value annotations with
    | error reason =>
      have unnamed : ∀ k, ¬ written.Denotes annotations k := fun k hk => by
        rw [← WrittenValue.value_eq_ok, named] at hk
        cases hk
      simp [value, named, unnamed, Bind.bind, Except.bind]
    | ok k =>
      have denotes : ∀ j, written.Denotes annotations j ↔ k = j := fun j => by
        rw [← WrittenValue.value_eq_ok, named, Except.ok.injEq]
      simp only [value, named, shows_memory, denotes, Bind.bind, Except.bind]
      by_cases inside : 0 ≤ k ∧ k.toNat < arch.memorySize
      · rw [dif_pos inside]
        constructor
        · intro h
          exact ⟨k.toNat, inside.2, (Int.toNat_of_nonneg inside.1).symm, Except.ok.inj h⟩
        · rintro ⟨address, below, rfl, rfl⟩
          rfl
      · rw [dif_neg inside]
        constructor
        · intro h
          cases h
        · rintro ⟨address, below, rfl, -⟩
          exact absurd ⟨Int.natCast_nonneg address, below⟩ inside

theorem Assertion.observed_judge {annotations : Annotations} {d : Datapath arch.toCircuit δ}
    {a : Assertion} {actual expected : Int} :
    (a.judge annotations d).observed = .ok (actual, expected) ↔
      a.subject.Shows annotations d actual ∧ a.expected.Denotes annotations expected := by
  rw [← Subject.value_eq_ok, ← WrittenValue.value_eq_ok]
  cases shown : a.subject.value annotations d with
  | error reason => simp [judge, shown, Bind.bind, Except.bind]
  | ok actual =>
    cases named : a.expected.value annotations <;>
      simp [judge, shown, named, Bind.bind, Except.bind, Pure.pure, Except.pure]

theorem Verdict.passed_iff {v : Verdict} :
    v.passed = true ↔ ∃ actual expected, v.observed = .ok (actual, expected) ∧
      v.assertion.comparison.Relates actual expected := by
  cases observed : v.observed with
  | error reason => simp [passed, observed]
  | ok numbers => simp [passed, observed, Comparison.holds_iff, Prod.ext_iff]

theorem Assertion.passed_judge {annotations : Annotations} {d : Datapath arch.toCircuit δ}
    {a : Assertion} : (a.judge annotations d).passed = true ↔ a.Holds annotations d := by
  simp only [Verdict.passed_iff, observed_judge, Holds, and_assoc]
  rfl

/-- A name in an assertion that means nothing: an unknown component or label, or an address outside
memory. -/
inductive Assertion.Unobservable (annotations : Annotations) (arch : Architecture) :
    Assertion → Prop
  | component {name : String} {comparison : Comparison} {expected : WrittenValue}
    (unknown : arch.wiring.place? name = none) :
    Unobservable annotations arch ⟨.component name, comparison, expected⟩
  | address {name : String} {comparison : Comparison} {expected : WrittenValue}
    (unknown : annotations.address? name = none) :
    Unobservable annotations arch ⟨.memory (.label name), comparison, expected⟩
  | outside {written : WrittenValue} {n : Int} {comparison : Comparison} {expected : WrittenValue}
    (named : written.Denotes annotations n) (outside : ¬ (0 ≤ n ∧ n < arch.memorySize)) :
    Unobservable annotations arch ⟨.memory written, comparison, expected⟩
  | expected {subject : Subject} {comparison : Comparison} {name : String}
    (unknown : annotations.address? name = none) :
    Unobservable annotations arch ⟨subject, comparison, .label name⟩

theorem WrittenValue.Denotes.unique {annotations : Annotations} {written : WrittenValue}
    {a b : Int} (h : written.Denotes annotations a) (h' : written.Denotes annotations b) :
    a = b := by
  rw [← value_eq_ok] at h h'
  exact Except.ok.inj (h.symm.trans h')

theorem Assertion.Unobservable.not_holds {annotations : Annotations} {a : Assertion}
    (h : a.Unobservable annotations arch) (d : Datapath arch.toCircuit δ) :
    ¬ a.Holds annotations d := by
  rintro ⟨actual, expected, shown, denoted, -⟩
  cases h with
  | component unknown => simp [unknown] at shown
  | address unknown => simp [unknown] at shown
  | outside named outside =>
    simp only [Subject.shows_memory] at shown
    obtain ⟨address, inside, named', -⟩ := shown
    obtain rfl := named.unique named'
    omega
  | expected unknown => simp [unknown] at denoted

variable [Device δ]

/-- What a result says of a block that was run on `m`: where the block stands, in which tick the
machine came to its halt, and for each assertion in order whether it holds behind the run and which
numbers were compared. -/
structure BlockResult.Reports (annotations : Annotations) (budget : Nat) (block : Block)
    (m : Machine arch δ) (r : BlockResult) : Prop where
  startLine_eq : r.startLine = block.startLine
  endLine_eq : r.endLine = block.endLine
  ticks : ∀ t, r.ticks = some t ↔ m.HaltsIn budget t
  assertions : r.verdicts.map (·.assertion) = block.assertions
  verdicts : ∀ v ∈ r.verdicts,
    (v.passed = true ↔ v.assertion.Holds annotations (m.runToHalt budget).2.datapath) ∧
    ∀ actual expected, v.observed = .ok (actual, expected) ↔
      v.assertion.subject.Shows annotations (m.runToHalt budget).2.datapath actual ∧
      v.assertion.expected.Denotes annotations expected

/-- A machine that comes to its halt and satisfies the assertions there. -/
structure Block.Met (annotations : Annotations) (budget : Nat) (block : Block)
    (m : Machine arch δ) : Prop where
  halts : ∃ ticks, m.HaltsIn budget ticks
  holds : ∀ a ∈ block.assertions, a.Holds annotations (m.runToHalt budget).2.datapath

theorem Block.ticks_run {annotations : Annotations} {budget : Nat} {block : Block}
    {m : Machine arch δ} {ticks : Nat} :
    (block.run annotations budget m).1.ticks = some ticks ↔
      (m.runToHalt budget).1 = .halted ticks := by
  cases hrun : m.runToHalt budget with
  | mk outcome m' => cases outcome <;> simp [run, hrun]

theorem Block.run_reports (annotations : Annotations) (budget : Nat) (block : Block)
    (m : Machine arch δ) :
    (block.run annotations budget m).1.Reports annotations budget block m where
  startLine_eq := rfl
  endLine_eq := rfl
  ticks _ := ticks_run.trans Machine.runToHalt_eq_halted
  assertions := by
    simp only [run, List.map_map]
    exact List.map_id _
  verdicts v hv := by
    simp only [run, List.mem_map] at hv
    obtain ⟨a, -, rfl⟩ := hv
    exact ⟨Assertion.passed_judge, fun _ _ => Assertion.observed_judge⟩

theorem BlockResult.Reports.passed_iff {annotations : Annotations} {budget : Nat} {block : Block}
    {m : Machine arch δ} {r : BlockResult} (h : r.Reports annotations budget block m) :
    r.passed = true ↔ block.Met annotations budget m := by
  have halts : r.ticks.isSome = true ↔ ∃ ticks, m.HaltsIn budget ticks := by
    simp only [Option.isSome_iff_exists, h.ticks]
  have holds : r.verdicts.all Verdict.passed = true ↔
      ∀ a ∈ block.assertions, a.Holds annotations (m.runToHalt budget).2.datapath := by
    rw [← h.assertions, List.all_eq_true, List.forall_mem_map]
    exact forall₂_congr fun v hv => (h.verdicts v hv).1
  rw [passed, Bool.and_eq_true, halts, holds]
  exact ⟨fun ⟨halts, holds⟩ => ⟨halts, holds⟩, fun met => ⟨met.halts, met.holds⟩⟩

/-- The results of blocks that are run one after the other from a machine, and the machine that is
left behind. -/
inductive Executes (annotations : Annotations) (budget : Nat) :
    List Block → Machine arch δ → List BlockResult → Machine arch δ → Prop
  | done (m : Machine arch δ) : Executes annotations budget [] m [] m
  | exhausted {block : Block} {rest : List Block} {m : Machine arch δ} {r : BlockResult}
    (reports : r.Reports annotations budget block m) (unfinished : r.ticks = none) :
    Executes annotations budget (block :: rest) m [r] (m.runToHalt budget).2
  | halted {block : Block} {rest : List Block} {m m' : Machine arch δ} {r : BlockResult}
    {results : List BlockResult}
    (reports : r.Reports annotations budget block m) (finished : r.ticks ≠ none)
    (more : Executes annotations budget rest (m.runToHalt budget).2 results m') :
    Executes annotations budget (block :: rest) m (r :: results) m'

theorem executes_runBlocks (annotations : Annotations) (budget : Nat) (blocks : List Block)
    (m : Machine arch δ) :
    Executes annotations budget blocks m (runBlocks annotations budget blocks m).1
      (runBlocks annotations budget blocks m).2 := by
  induction blocks generalizing m with
  | nil => exact .done m
  | cons block rest ih =>
    have reports := block.run_reports annotations budget m
    simp only [runBlocks]
    split
    · next unfinished => exact .exhausted reports (by simpa using unfinished)
    · next finished => exact .halted reports (by simpa using finished) (ih _)

namespace Executes

variable {annotations : Annotations} {budget : Nat} {blocks : List Block} {m m' : Machine arch δ}
  {results : List BlockResult}

theorem length_le (h : Executes annotations budget blocks m results m') :
    results.length ≤ blocks.length := by
  induction h with
  | done m => exact Nat.le_refl 0
  | exhausted => simp
  | halted _ _ _ ih => simpa using ih

theorem reports (h : Executes annotations budget blocks m results m') {i : Nat} {r : BlockResult}
    (hr : results[i]? = some r) :
    ∃ block, blocks[i]? = some block ∧
      r.Reports annotations budget block (m.afterRuns budget i) := by
  induction h generalizing i with
  | done m => simp at hr
  | exhausted reports _ =>
    cases i with
    | zero => simp_all
    | succ i => simp at hr
  | halted reports _ _ ih =>
    cases i with
    | zero => simp_all
    | succ i =>
      rw [Machine.afterRuns_succ]
      exact ih hr

theorem eq_last (h : Executes annotations budget blocks m results m') {i : Nat} {r : BlockResult}
    (hr : results[i]? = some r) (unfinished : r.ticks = none) : i + 1 = results.length := by
  induction h generalizing i with
  | done m => simp at hr
  | exhausted _ _ =>
    cases i with
    | zero => rfl
    | succ i => simp at hr
  | halted _ finished _ ih =>
    cases i with
    | zero => simp_all
    | succ i => simpa using ih hr

theorem exists_unfinished (h : Executes annotations budget blocks m results m')
    (short : results.length < blocks.length) : ∃ r ∈ results, r.ticks = none := by
  induction h with
  | done m => simp at short
  | exhausted _ unfinished => exact ⟨_, List.mem_cons_self, unfinished⟩
  | halted _ _ _ ih =>
    have ⟨r, hr, unfinished⟩ := ih (by simpa using short)
    exact ⟨r, List.mem_cons_of_mem _ hr, unfinished⟩

theorem machine_eq (h : Executes annotations budget blocks m results m') :
    m' = m.afterRuns budget results.length := by
  induction h with
  | done m => rfl
  | exhausted => rfl
  | halted _ _ _ ih => rw [ih, List.length_cons, Machine.afterRuns_succ]

theorem ticks_runToHalt {block : Block} {r : BlockResult}
    (reports : r.Reports annotations budget block m) :
    (m.runToHalt budget).2.ticks = m.ticks + r.ticks.getD budget := by
  rw [(m.ran_runToHalt budget).ticks_eq]
  cases outcome : (m.runToHalt budget).1 with
  | halted ticks =>
    rw [(reports.ticks ticks).mpr (Machine.runToHalt_eq_halted.mp outcome)]
    rfl
  | budgetExhausted =>
    cases hticks : r.ticks with
    | none => rfl
    | some ticks =>
      rw [Machine.runToHalt_eq_halted.mpr ((reports.ticks ticks).mp hticks)] at outcome
      cases outcome

theorem ticks_eq (h : Executes annotations budget blocks m results m') :
    m'.ticks = m.ticks + (results.map (·.ticks.getD budget)).sum := by
  induction h with
  | done m => simp
  | exhausted reports _ => simp [ticks_runToHalt reports]
  | halted reports _ _ ih => simp [ih, ticks_runToHalt reports, Nat.add_assoc]

theorem passed_iff (h : Executes annotations budget blocks m results m') :
    (results.length = blocks.length ∧ ∀ r ∈ results, r.passed = true) ↔
      ∀ (i : Nat) (block : Block), blocks[i]? = some block →
        block.Met annotations budget (m.afterRuns budget i) := by
  induction h with
  | done m => simp
  | exhausted reports unfinished =>
    constructor
    · rintro ⟨-, passed⟩
      have := passed _ List.mem_cons_self
      simp [BlockResult.passed, unfinished] at this
    · intro met
      have passed := reports.passed_iff.mpr (met 0 _ rfl)
      simp [BlockResult.passed, unfinished] at passed
  | halted reports _ _ ih =>
    simp only [List.length_cons, Nat.add_right_cancel_iff, List.forall_mem_cons]
    rw [and_left_comm, ih, reports.passed_iff]
    constructor
    · rintro ⟨first, later⟩ i block hblock
      cases i with
      | zero =>
        obtain rfl := Option.some.inj hblock
        exact first
      | succ i =>
        rw [Machine.afterRuns_succ]
        exact later i block hblock
    · intro met
      refine ⟨met 0 _ rfl, fun i block hblock => ?_⟩
      have later := met (i + 1) block hblock
      rw [Machine.afterRuns_succ] at later
      exact later

end Executes

theorem Report.passed_add_failed (r : Report) : r.passed + r.failed = r.results.length :=
  Nat.add_sub_of_le List.countP_le_length

/-- Test blocks are judged in the states that they mean. The results belong to the first blocks, the
one with the number `i` to the machine behind `i` runs up to a halt; the run after them is the one
that it reports and behind which it looks. Only the last result can lack a halt, and only behind
such a one blocks are left out. All pass exactly where each block in its turn comes to a halt within
the budget and each of its assertions holds there, which none does that names nothing. Judging does
not touch the machine, whose ticks grow by those that are reported and by the budget that was used
up. -/
theorem run_exact (annotations : Annotations) (budget : Nat) (blocks : List Block)
    (m : Machine arch δ) :
    let report := (run annotations budget blocks m).1
    let final := (run annotations budget blocks m).2
    (∀ (i : Nat) (r : BlockResult), report.results[i]? = some r →
      (∃ block, blocks[i]? = some block ∧
        r.Reports annotations budget block (m.afterRuns budget i)) ∧
      (r.ticks = none → i + 1 = report.results.length)) ∧
    report.results.length + report.unexecuted = blocks.length ∧
    (0 < report.unexecuted → ∃ r ∈ report.results, r.ticks = none) ∧
    final = m.afterRuns budget report.results.length ∧
    final.ticks = m.ticks + (report.results.map (·.ticks.getD budget)).sum ∧
    (report.allPassed = true ↔ ∀ (i : Nat) (block : Block), blocks[i]? = some block →
      block.Met annotations budget (m.afterRuns budget i)) ∧
    (∀ (a : Assertion) (d : Datapath arch.toCircuit δ), a.Unobservable annotations arch →
      (a.judge annotations d).passed = false) ∧
    report.passed + report.failed + report.unexecuted = report.total := by
  intro report final
  have executes : Executes annotations budget blocks m report.results final :=
    executes_runBlocks annotations budget blocks m
  have counted : report.results.length + report.unexecuted = blocks.length :=
    Nat.add_sub_of_le executes.length_le
  refine ⟨fun i r hr => ⟨executes.reports hr, executes.eq_last hr⟩, counted,
    fun left => executes.exists_unfinished (by omega), executes.machine_eq, executes.ticks_eq,
    ?_, fun a d unobservable => ?_, ?_⟩
  · rw [← executes.passed_iff, Report.allPassed, Bool.and_eq_true, beq_iff_eq, List.all_eq_true]
    exact and_congr_left fun _ => by omega
  · rw [← Bool.not_eq_true, Assertion.passed_judge]
    exact unobservable.not_holds d
  · rw [report.passed_add_failed, Report.total]

end InlineTest

end BusMachine
