import BusMachine.Device.Queue
import BusMachine.Proofs.Standard.Passage
import Mathlib.Data.List.Induction

/-!
The discipline of the stack: as long as every pop has a push to answer it, fewer words are on the
stack than there are addresses, and no move writes a cell of the stack, each pop finds the word of
its push, and the stack pointer is back where it was when all words are popped.
-/

namespace BusMachine.Standard

open Datapath

/-- The address `n` below another one. Below 0 comes the last address. -/
def below (wordSize base n : Nat) : Nat := if n ≤ base then base - n else base + wordSize - n

theorem below_zero (wordSize base : Nat) : below wordSize base 0 = base := by
  unfold below
  rw [if_pos (Nat.zero_le _), Nat.sub_zero]

theorem below_lt {wordSize base : Nat} (hbase : base < wordSize) (n : Nat) :
    below wordSize base n < wordSize := by
  unfold below
  split <;> omega

theorem pred_below {wordSize base n : Nat} (hbase : base < wordSize) (hn : n < wordSize) :
    (below wordSize base n + wordSize - 1) % wordSize = below wordSize base (n + 1) := by
  unfold below
  by_cases hlt : n < base
  · have sum : base - n + wordSize - 1 = base - (n + 1) + wordSize := by omega
    rw [if_pos (Nat.le_of_lt hlt), if_pos (Nat.succ_le_of_lt hlt), sum, Nat.add_mod_right]
    exact Nat.mod_eq_of_lt (by omega)
  · rw [if_neg (show ¬n + 1 ≤ base by omega)]
    by_cases heq : n ≤ base
    · rw [if_pos heq]
      exact (Nat.mod_eq_of_lt (by omega)).trans (by omega)
    · have sum : base + wordSize - n + wordSize - 1 = base + wordSize - (n + 1) + wordSize := by
        omega
      rw [if_neg heq, sum, Nat.add_mod_right]
      exact Nat.mod_eq_of_lt (by omega)

theorem succ_below {wordSize base n : Nat} (hbase : base < wordSize) (hn : n < wordSize) :
    (below wordSize base (n + 1) + 1) % wordSize = below wordSize base n := by
  have hlt := below_lt hbase n
  have back : (below wordSize base n + wordSize - 1 + 1) % wordSize = below wordSize base n := by
    rw [Nat.sub_add_cancel (by omega), Nat.add_mod_right, Nat.mod_eq_of_lt hlt]
  rw [← pred_below hbase hn, Nat.mod_add_mod, back]

theorem below_injective {wordSize base m n : Nat} (hm : m < wordSize)
    (hn : n < wordSize) (h : below wordSize base m = below wordSize base n) : m = n := by
  unfold below at h
  split at h <;> split at h <;> omega

section Effects

variable {size : Nat} {δ : Type}

def Meaning.pushed? (wordSize : Nat) (s : State size δ) : Meaning → Option Word
  | .pushOperand => some (s.word ((s.pc + 1) % wordSize))
  | .pushX => some s.x
  | .call => some s.pc
  | _ => none

def Meaning.pops : Meaning → Bool
  | .popX | .ret => true
  | _ => false

def Meaning.moved? (wordSize : Nat) (s : State size δ) : Meaning → Option Word
  | .writeDirect => some (s.word ((s.pc + 1) % wordSize))
  | .writeIndirect => some s.b
  | .writeOperand | .writeCopy => some (s.word ((s.pc + 2) % wordSize))
  | .writeStack =>
    some ((s.stackPtr + wordSize - s.word ((s.pc + 1) % wordSize)) % wordSize)
  | _ => none

/-- A meaning that would let a program set the stack pointer. No instruction has it. -/
def Meaning.setsPointer : Meaning → Bool
  | .copy _ .stackPtr | .loadOperand .stackPtr => true
  | _ => false

theorem setsPointer_of_meaningOf? {opcode : Word} {meaning : Meaning}
    (h : meaningOf? opcode = some meaning) : meaning.setsPointer = false := by
  have all : ∀ entry ∈ meanings, entry.2.setsPointer = false := by decide
  obtain ⟨i, -, hlookup⟩ := Option.bind_eq_some_iff.mp h
  obtain ⟨before, after, hmeanings, -⟩ := List.lookup_eq_some_iff.mp hlookup
  exact all (i.name, meaning) (by simp [hmeanings])

namespace State

/-- The cell that a push writes. -/
def pushCell (wordSize : Nat) (s : State size δ) : Word := (s.stackPtr + wordSize - 1) % wordSize

def pushed? (wordSize : Nat) (s : State size δ) : Option Word :=
  s.meaning?.bind fun meaning => meaning.pushed? wordSize s

def pops (s : State size δ) : Bool :=
  match s.meaning? with
  | some meaning => meaning.pops
  | none => false

def moved? (wordSize : Nat) (s : State size δ) : Option Word :=
  s.meaning?.bind fun meaning => meaning.moved? wordSize s

theorem word_store (s : State size δ) {address : Word} (h : address < size) (word : Word) :
    (s.store address word).word address = word := by
  simp [State.word, store, Vector.getD, h]

theorem word_store_of_ne (s : State size δ) {address other : Word} (h : address ≠ other)
    (word : Word) : (s.store address word).word other = s.word other := by
  by_cases hlt : other < size
  · simp [State.word, store, Vector.getD, hlt, h]
  · simp [State.word, store, Vector.getD, hlt]

end State

section Perform

variable [Device δ] {wordSize : Nat} {s : State size δ} {meaning : Meaning}

theorem perform_push {word : Word} (h : meaning.pushed? wordSize s = some word) :
    (meaning.perform wordSize s).stackPtr = s.pushCell wordSize ∧
      (meaning.perform wordSize s).memory = (s.store (s.pushCell wordSize) word).memory := by
  cases meaning with
  | pushOperand | pushX | call =>
    cases h
    exact ⟨rfl, rfl⟩
  | _ => cases h

theorem perform_pop (h : meaning.pops = true) :
    (meaning.perform wordSize s).stackPtr = (s.stackPtr + 1) % wordSize := by
  cases meaning with
  | popX | ret => rfl
  | _ => cases h

theorem perform_stackPtr (hpush : meaning.pushed? wordSize s = none) (hpop : meaning.pops = false)
    (hset : meaning.setsPointer = false) :
    (meaning.perform wordSize s).stackPtr = s.stackPtr := by
  cases meaning with
  | copy source target =>
    cases target with
    | stackPtr => cases hset
    | _ => rfl
  | loadOperand target =>
    cases target with
    | stackPtr => cases hset
    | _ => rfl
  | pushOperand | pushX | call => cases hpush
  | popX | ret => cases hpop
  | _ => rfl

theorem word_perform_of_ne {cell : Word} (hpush : meaning.pushed? wordSize s = none)
    (hmove : meaning.moved? wordSize s ≠ some cell) :
    (meaning.perform wordSize s).word cell = s.word cell := by
  have moved : ∀ target, meaning.moved? wordSize s = some target → target ≠ cell := by
    rintro target htarget rfl
    exact hmove htarget
  cases meaning with
  | pushOperand | pushX | call => cases hpush
  | writeDirect | writeIndirect | writeOperand | writeCopy | writeStack =>
    exact State.word_store_of_ne s (moved _ rfl) _
  | copy source target => cases target <;> rfl
  | loadOperand target => cases target <;> rfl
  | _ => rfl

end Perform

/-- The pushes that are outstanding after an instruction, given those before it, the last one first
and each by the state in which it began. A pop takes the last one away and cannot do without. -/
def State.track (wordSize : Nat) (stack : List (State size δ)) (s : State size δ) :
    Option (List (State size δ)) :=
  if (s.pushed? wordSize).isSome then some (s :: stack)
  else if s.pops then stack.tail?
  else some stack

section Next

variable [Device δ] {wordSize : Nat} {s : State size δ}

theorem next_of_push {word : Word} (h : s.pushed? wordSize = some word) :
    (s.next wordSize).stackPtr = s.pushCell wordSize ∧
      (s.next wordSize).memory = (s.store (s.pushCell wordSize) word).memory := by
  obtain ⟨meaning, hmeaning, hpushed⟩ := Option.bind_eq_some_iff.mp h
  rw [State.next_of_some hmeaning]
  exact perform_push hpushed

theorem stackPtr_next_of_pop (h : s.pops = true) :
    (s.next wordSize).stackPtr = (s.stackPtr + 1) % wordSize := by
  unfold State.pops at h
  cases hmeaning : s.meaning? with
  | none =>
    rw [hmeaning] at h
    cases h
  | some meaning =>
    rw [hmeaning] at h
    rw [State.next_of_some hmeaning]
    exact perform_pop h

theorem stackPtr_next (hpush : s.pushed? wordSize = none) (hpop : s.pops = false) :
    (s.next wordSize).stackPtr = s.stackPtr := by
  unfold State.pushed? at hpush
  unfold State.pops at hpop
  cases hmeaning : s.meaning? with
  | none => rw [State.next_of_none hmeaning]
  | some meaning =>
    rw [hmeaning] at hpush hpop
    rw [State.next_of_some hmeaning]
    exact perform_stackPtr hpush hpop (setsPointer_of_meaningOf? hmeaning)

theorem word_next_of_ne {cell : Word} (hpush : s.pushed? wordSize = none)
    (hmove : s.moved? wordSize ≠ some cell) : (s.next wordSize).word cell = s.word cell := by
  unfold State.pushed? at hpush
  unfold State.moved? at hmove
  cases hmeaning : s.meaning? with
  | none => rw [State.next_of_none hmeaning]
  | some meaning =>
    rw [hmeaning] at hpush hmove
    rw [State.next_of_some hmeaning]
    exact word_perform_of_ne hpush hmove

end Next

/-- The cells of the pushes follow each other downward. -/
def Adjacent (wordSize base : Nat) : List (State size δ) → Prop
  | [] => True
  | push :: rest =>
    push.pushCell wordSize = below wordSize base (rest.length + 1) ∧ Adjacent wordSize base rest

theorem Adjacent.exists {wordSize base : Nat} {stack : List (State size δ)}
    (h : Adjacent wordSize base stack) {push : State size δ} (hpush : push ∈ stack) :
    ∃ n < stack.length, push.pushCell wordSize = below wordSize base (n + 1) := by
  induction stack with
  | nil => cases hpush
  | cons last rest ih =>
    obtain rfl | hpush := List.mem_cons.mp hpush
    · exact ⟨rest.length, Nat.lt_succ_self _, h.1⟩
    · obtain ⟨n, hn, hcell⟩ := ih h.2 hpush
      exact ⟨n, Nat.lt_succ_of_lt hn, hcell⟩

/-- A state with outstanding pushes, the first of which found the stack pointer at `base`. -/
structure Stacked (wordSize base : Nat) (stack : List (State size δ))
    (s : State size δ) : Prop where
  pointer : s.stackPtr = below wordSize base stack.length
  adjacent : Adjacent wordSize base stack
  word : ∀ push ∈ stack, push.pushed? wordSize = some (s.word (push.pushCell wordSize))

section Step

variable {wordSize base : Nat} {stack stack' : List (State size δ)} {s : State size δ}

theorem Stacked.pushCell (hbase : base < wordSize) (h : Stacked wordSize base stack s)
    (hlength : stack.length < wordSize) :
    s.pushCell wordSize = below wordSize base (stack.length + 1) := by
  unfold State.pushCell
  rw [h.pointer]
  exact pred_below hbase hlength

theorem Stacked.pushCell_ne (hbase : base < wordSize) (h : Stacked wordSize base stack s)
    (hlength : stack.length + 1 < wordSize) {push : State size δ} (hpush : push ∈ stack) :
    s.pushCell wordSize ≠ push.pushCell wordSize := by
  obtain ⟨n, hn, hcell⟩ := h.adjacent.exists hpush
  intro heq
  rw [h.pushCell hbase (Nat.lt_of_succ_lt hlength), hcell] at heq
  have same := below_injective (by omega) (by omega) heq
  omega

variable [Device δ]

theorem Stacked.next (hsize : wordSize ≤ size) (hbase : base < wordSize)
    (h : Stacked wordSize base stack s) (hlength : stack.length < wordSize)
    (hspared : ∀ push ∈ stack, s.moved? wordSize ≠ some (push.pushCell wordSize))
    (htrack : s.track wordSize stack = some stack') (hlength' : stack'.length < wordSize) :
    Stacked wordSize base stack' (s.next wordSize) := by
  unfold State.track at htrack
  cases hpush : s.pushed? wordSize with
  | some word =>
    rw [hpush, Option.isSome_some, if_pos rfl] at htrack
    cases htrack
    have ⟨hpointer, hmemory⟩ := next_of_push hpush
    have cell := h.pushCell hbase hlength
    have inside : s.pushCell wordSize < size := by
      rw [cell]
      exact Nat.lt_of_lt_of_le (below_lt hbase _) hsize
    have stored : ∀ address, (s.next wordSize).word address =
        (s.store (s.pushCell wordSize) word).word address := by
      intro address
      unfold State.word
      rw [hmemory]
    refine ⟨hpointer.trans cell, ⟨cell, h.adjacent⟩, fun push hmem => ?_⟩
    rw [stored]
    obtain rfl | hmem := List.mem_cons.mp hmem
    · rw [State.word_store _ inside, hpush]
    · rw [State.word_store_of_ne _ (h.pushCell_ne hbase hlength' hmem)]
      exact h.word push hmem
  | none =>
    have kept : ∀ push ∈ stack,
        push.pushed? wordSize = some ((s.next wordSize).word (push.pushCell wordSize)) := by
      intro push hmem
      rw [word_next_of_ne hpush (hspared push hmem)]
      exact h.word push hmem
    rw [hpush, Option.isSome_none, if_neg Bool.false_ne_true] at htrack
    cases hpop : s.pops with
    | true =>
      rw [hpop, if_pos rfl] at htrack
      cases stack with
      | nil => cases htrack
      | cons last rest =>
        cases htrack
        refine ⟨?_, h.adjacent.2, fun push hmem => kept push (List.mem_cons_of_mem _ hmem)⟩
        rw [stackPtr_next_of_pop hpop, h.pointer]
        exact succ_below hbase hlength'
    | false =>
      rw [hpop, if_neg Bool.false_ne_true] at htrack
      cases htrack
      exact ⟨(stackPtr_next hpush hpop).trans h.pointer, h.adjacent, kept⟩

end Step

def outstanding (wordSize : Nat) (states : List (State size δ)) : Option (List (State size δ)) :=
  states.foldlM (State.track wordSize) []

theorem outstanding_concat (wordSize : Nat) (states : List (State size δ)) (s : State size δ) :
    outstanding wordSize (states ++ [s]) =
      (outstanding wordSize states).bind fun stack => s.track wordSize stack := by
  unfold outstanding
  rw [List.foldlM_append]
  congr 1
  funext stack
  exact List.foldlM_cons .. |>.trans (bind_pure _)

/-- Instructions of which every pop answers a push, with fewer outstanding pushes than there are
addresses and no move to the cell of one. -/
structure Disciplined (wordSize : Nat) (states : List (State size δ)) : Prop where
  answering : (outstanding wordSize states).isSome = true
  shallow : ∀ k ≤ states.length, ∀ stack ∈ outstanding wordSize (states.take k),
    stack.length < wordSize
  spared : ∀ k < states.length, ∀ s ∈ states[k]?, ∀ stack ∈ outstanding wordSize (states.take k),
    ∀ push ∈ stack, s.moved? wordSize ≠ some (push.pushCell wordSize)

instance (wordSize : Nat) (states : List (State size δ)) :
    Decidable (Disciplined wordSize states) :=
  decidable_of_iff
    ((outstanding wordSize states).isSome = true ∧
      (∀ k ≤ states.length, ∀ stack ∈ outstanding wordSize (states.take k),
        stack.length < wordSize) ∧
      ∀ k < states.length, ∀ s ∈ states[k]?, ∀ stack ∈ outstanding wordSize (states.take k),
        ∀ push ∈ stack, s.moved? wordSize ≠ some (push.pushCell wordSize))
    ⟨fun ⟨answering, shallow, spared⟩ => ⟨answering, shallow, spared⟩,
      fun h => ⟨h.answering, h.shallow, h.spared⟩⟩

theorem Disciplined.of_append {wordSize : Nat} {states more : List (State size δ)}
    (h : Disciplined wordSize (states ++ more)) : Disciplined wordSize states where
  answering := by
    have answering := h.answering
    unfold outstanding at answering
    rw [List.foldlM_append] at answering
    exact Option.isSome_of_isSome_bind answering
  shallow k hk := by
    have shallow := h.shallow k (by rw [List.length_append]; omega)
    rw [List.take_append_of_le_length hk] at shallow
    exact shallow
  spared k hk := by
    have spared := h.spared k (by rw [List.length_append]; omega)
    rw [List.take_append_of_le_length (Nat.le_of_lt hk), List.getElem?_append_left hk] at spared
    exact spared

theorem Disciplined.last {wordSize : Nat} {states stack : List (State size δ)} {s : State size δ}
    (h : Disciplined wordSize (states ++ [s])) (hstack : outstanding wordSize states = some stack) :
    ∃ stack', s.track wordSize stack = some stack' ∧ stack.length < wordSize ∧
      stack'.length < wordSize ∧
      ∀ push ∈ stack, s.moved? wordSize ≠ some (push.pushCell wordSize) := by
  obtain ⟨stack', hstack'⟩ := Option.isSome_iff_exists.mp h.answering
  have before : outstanding wordSize ((states ++ [s]).take states.length) = some stack := by
    rw [List.take_left, hstack]
  have after : outstanding wordSize ((states ++ [s]).take (states ++ [s]).length) =
      some stack' := by
    rw [List.take_length, hstack']
  have htrack := hstack'
  rw [outstanding_concat, hstack] at htrack
  exact ⟨stack', htrack, h.shallow _ (by simp) stack before,
    h.shallow _ (Nat.le_refl _) stack' after,
    h.spared _ (by simp) s (by simp) stack before⟩

/-- How an instruction that begins in `s` and leaves `s'` treats the outstanding pushes. -/
structure Respects (wordSize : Nat) (stack : List (State size δ)) (s s' : State size δ) :
    Prop where
  /-- It finds every word in its cell. -/
  kept : ∀ push ∈ stack, push.pushed? wordSize = some (s.word (push.pushCell wordSize))
  /-- What it pushes goes to a cell of its own. -/
  fresh : (s.pushed? wordSize).isSome = true → ∀ push ∈ stack,
    s.pushCell wordSize ≠ push.pushCell wordSize
  /-- What it pops is the word that was pushed last. -/
  popped : s.meaning? = some .popX → ∃ push rest, stack = push :: rest ∧
    push.pushed? wordSize = some s'.x
  /-- It returns to the word behind the call that was made last. -/
  returned : s.meaning? = some .ret → ∃ push rest, stack = push :: rest ∧
    (push.meaning? = some .call → s'.pc = (push.pc + 2) % wordSize)

theorem Stacked.exists_last {wordSize base : Nat} {stack stack' : List (State size δ)}
    {s : State size δ} (h : Stacked wordSize base stack s)
    (htrack : s.track wordSize stack = some stack') (hpush : s.pushed? wordSize = none)
    (hpop : s.pops = true) :
    ∃ push rest, stack = push :: rest ∧ push.pushed? wordSize = some (s.word s.stackPtr) := by
  unfold State.track at htrack
  rw [hpush, hpop] at htrack
  cases stack with
  | nil => cases htrack
  | cons push rest =>
    have found := h.word push List.mem_cons_self
    rw [h.adjacent.1] at found
    rw [h.pointer]
    exact ⟨push, rest, rfl, found⟩

theorem Stacked.respects [Device δ] {wordSize base : Nat} {stack stack' : List (State size δ)}
    {s : State size δ} (hbase : base < wordSize) (h : Stacked wordSize base stack s)
    (htrack : s.track wordSize stack = some stack') (hlength' : stack'.length < wordSize) :
    Respects wordSize stack s (s.next wordSize) := by
  refine ⟨h.word, fun hpush push hmem => ?_, fun hmeaning => ?_, fun hmeaning => ?_⟩
  · unfold State.track at htrack
    rw [if_pos hpush] at htrack
    cases htrack
    exact h.pushCell_ne hbase hlength' hmem
  · obtain ⟨push, rest, hlast, hword⟩ := h.exists_last htrack
      (by simp [State.pushed?, hmeaning, Meaning.pushed?])
      (by simp [State.pops, hmeaning, Meaning.pops])
    rw [State.next_of_some hmeaning]
    exact ⟨push, rest, hlast, hword⟩
  · obtain ⟨push, rest, hlast, hword⟩ := h.exists_last htrack
      (by simp [State.pushed?, hmeaning, Meaning.pushed?])
      (by simp [State.pops, hmeaning, Meaning.pops])
    refine ⟨push, rest, hlast, fun hcall => ?_⟩
    have own : push.pushed? wordSize = some push.pc := by
      simp [State.pushed?, hcall, Meaning.pushed?]
    have found : push.pc = s.word s.stackPtr := Option.some.inj (own.symm.trans hword)
    rw [State.next_of_some hmeaning, found]
    rfl

end Effects

def begun {c : Circuit} {δ : Type} (passages : List (Passage c δ)) : List (State c.memorySize δ) :=
  passages.map fun p => State.ofDatapath p.before

section Segments

variable {params : Parameters} {valid : params.Valid} {δ : Type} [Device δ]
  {d d' : Datapath (circuit params valid) δ}
  {passages : List (Passage (circuit params valid) δ)} {p : Passage (circuit params valid) δ}

omit [Device δ] in
theorem begun_concat :
    begun (passages ++ [p]) = begun passages ++ [State.ofDatapath p.before] :=
  List.map_append

theorem stacked_segment (hsize : 46 ≤ params.wordSize) (h : d.beginCycle.Sound)
    (hsegment : sequencer.Segment d passages d')
    (hpassages : Disciplined params.wordSize (begun passages)) :
    ∃ stack, outstanding params.wordSize (begun passages) = some stack ∧
      Stacked params.wordSize (State.ofDatapath d).stackPtr stack (State.ofDatapath d') := by
  have hbase : (State.ofDatapath d).stackPtr < params.wordSize :=
    h.values_lt Register.stackPtr.slot
  induction passages using List.reverseRecOn generalizing d' with
  | nil =>
    cases hsegment
    exact ⟨[], rfl, (below_zero _ _).symm, trivial, fun push hpush => nomatch hpush⟩
  | append_singleton passages p ih =>
    have ⟨hfirst, hlast, hnext⟩ := next_of_concat hsize h hsegment
    rw [begun_concat] at hpassages ⊢
    obtain ⟨stack, hstack, stacked⟩ := ih hfirst hpassages.of_append
    obtain ⟨stack', htrack, hlength, hlength', hspared⟩ := hpassages.last hstack
    rw [hlast, hnext, outstanding_concat, hstack]
    exact ⟨stack', htrack, stacked.next valid.wordSize_le_memorySize hbase hlength hspared htrack
      hlength'⟩

theorem respects_of_concat (hsize : 46 ≤ params.wordSize) (h : d.beginCycle.Sound)
    (hsegment : sequencer.Segment d (passages ++ [p]) d')
    (hpassages : Disciplined params.wordSize (begun (passages ++ [p]))) :
    ∃ stack, outstanding params.wordSize (begun passages) = some stack ∧
      Respects params.wordSize stack (State.ofDatapath p.before) (State.ofDatapath p.after) := by
  have ⟨hfirst, _, hnext⟩ := next_of_concat hsize h hsegment
  have hbase : (State.ofDatapath d).stackPtr < params.wordSize :=
    h.values_lt Register.stackPtr.slot
  rw [begun_concat] at hpassages
  obtain ⟨stack, hstack, stacked⟩ := stacked_segment hsize h hfirst hpassages.of_append
  obtain ⟨stack', htrack, _, hlength', _⟩ := hpassages.last hstack
  rw [hnext]
  exact ⟨stack, hstack, stacked.respects hbase htrack hlength'⟩

end Segments

/-- In a disciplined segment of a standard machine every pop gets the word of its push and every
return goes behind its call, and outstanding words stay in cells of their own. If no push is left
over, the stack pointer ends where it began. -/
theorem segment_respects_stack {params : Parameters} {arch : Architecture} {δ : Type} [Device δ]
    (h : Architecture.standard params = .ok arch) {d d' : Datapath arch.toCircuit δ}
    (hvalues : ∀ i : Fin arch.size, d.values.get i < params.wordSize)
    (hmemory : ∀ i : Fin arch.memorySize, d.memory.get i < params.wordSize)
    {passages : List (Passage arch.toCircuit δ)} (hsegment : arch.sequencer.Segment d passages d')
    (hpassages : Disciplined params.wordSize (begun passages))
    (hbalanced : outstanding params.wordSize (begun passages) = some []) :
    (State.ofDatapath d').stackPtr = (State.ofDatapath d).stackPtr ∧
      ∀ before p after, passages = before ++ p :: after →
        ∃ stack, outstanding params.wordSize (begun before) = some stack ∧
          Respects params.wordSize stack (State.ofDatapath p.before)
            (State.ofDatapath p.after) := by
  obtain ⟨valid, hsize, rfl⟩ := standard_ok_iff.mp h
  have sound : d.beginCycle.Sound := sound_beginCycle hvalues hmemory
  constructor
  · obtain ⟨stack, hstack, stacked⟩ := stacked_segment hsize sound hsegment hpassages
    cases hbalanced.symm.trans hstack
    exact stacked.pointer.trans (below_zero _ _)
  · intro before p after hsplit
    have split : passages = (before ++ [p]) ++ after := by simp [hsplit]
    rw [split] at hsegment hpassages
    obtain ⟨_, hprefix, -⟩ := hsegment.of_append
    have disciplined : Disciplined params.wordSize (begun (before ++ [p])) := by
      unfold begun at hpassages
      rw [List.map_append] at hpassages
      exact hpassages.of_append
    exact respects_of_concat hsize sound hprefix disciplined

def nesting : Datapath (circuit {} default_valid) QueueDevice :=
  { calling.latch 7 Register.x.slot with
    memory := Vector.ofFn fun i => [44, 4, 0, 0, 42, 43, 45].getD i 0 }

def nestingStates : List (State 256 QueueDevice) :=
  (List.range 4).map fun k => (State.next 256)^[k] (State.ofDatapath nesting)

theorem nestingStates_run : Disciplined 256 nestingStates ∧
    (outstanding 256 nestingStates).map List.length = some 0 ∧
      ∀ k < 4, (((State.next 256)^[k] (State.ofDatapath nesting)).meaning?).isSome = true := by
  decide +kernel

theorem segment_respects_stack_nesting :
    ∃ passages d', sequencer.Segment nesting passages d' ∧ begun passages = nestingStates ∧
      (State.ofDatapath d').stackPtr = (State.ofDatapath nesting).stackPtr ∧
      ∀ before p after, passages = before ++ p :: after →
        ∃ stack, outstanding 256 (begun before) = some stack ∧
          Respects 256 stack (State.ofDatapath p.before) (State.ofDatapath p.after) := by
  have values : ∀ i, nesting.values.get i < 256 := by decide +kernel
  have memory : ∀ i, nesting.memory.get i < 256 := by decide +kernel
  have begins : sequencer.Begins nesting := begins_iff.mpr (by decide +kernel)
  obtain ⟨hdisciplined, hlength, meanings⟩ := nestingStates_run
  obtain ⟨stack, hstack, hempty⟩ := Option.map_eq_some_iff.mp hlength
  rw [List.length_eq_zero_iff.mp hempty] at hstack
  obtain ⟨passages, d', hsegment, hbegun, -⟩ :=
    exists_segment_iterate (by decide) (sound_beginCycle values memory) begins meanings
  replace hbegun : begun passages = nestingStates := hbegun
  have disciplined : Disciplined 256 (begun passages) := hbegun ▸ hdisciplined
  have balanced : outstanding 256 (begun passages) = some [] := hbegun ▸ hstack
  exact ⟨passages, d', hsegment, hbegun,
    segment_respects_stack standard_default values memory hsegment disciplined balanced⟩

end BusMachine.Standard
