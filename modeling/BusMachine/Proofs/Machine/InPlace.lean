import BusMachine.Machine

/-!
Memory written on the spot, cell by cell, where what was written before a refusal would stay.
Loading an image and writing a cell come to the same as the requests that give a new machine, and
leave the machine as it was if they are refused.
-/

namespace BusMachine

/-- The outcome of a request as one carried out on the spot: a refusal leaves the old state. -/
def inPlace {ε σ : Type} (s : σ) : Except ε σ → EStateM.Result ε σ Unit
  | .ok s' => .ok () s'
  | .error fault => .error fault s

namespace Datapath

variable {c : Circuit} {δ : Type}

def store (d : Datapath c δ) (address : Nat) (value : Word) : Datapath c δ :=
  { d with memory := d.memory.setIfInBounds address (value % c.wordSize) }

def loadInPlace (image : Array Word) : EStateM RequestFault (Datapath c δ) Unit := do
  if c.memorySize < image.size then throw (.imageTooLarge image.size c.memorySize)
  modify fun d => { d with memory := .replicate _ 0 }
  image.toList.zipIdx.forM fun cell => modify (·.store cell.2 cell.1)

def writeCellInPlace (address : Nat) (value : Word) :
    EStateM RequestFault (Datapath c δ) Unit := do
  if c.memorySize ≤ address then throw (.addressOutOfRange address c.memorySize)
  modify (·.store address value)

theorem forM_store_run (cells : List (Word × Nat)) (d : Datapath c δ) :
    (cells.forM fun cell => modify (·.store cell.2 cell.1) :
        EStateM RequestFault (Datapath c δ) Unit).run d =
      .ok () (cells.foldl (fun d cell => d.store cell.2 cell.1) d) := by
  induction cells generalizing d with
  | nil => rfl
  | cons cell rest ih =>
    rw [List.forM_eq_forM, List.forM_cons]
    exact ih (d.store cell.2 cell.1)

theorem foldl_store (words : List Word) (start : Nat) (d : Datapath c δ) :
    (words.zipIdx start).foldl (fun d cell => d.store cell.2 cell.1) d =
      { d with memory := Vector.ofFn fun i =>
          if start ≤ i then (words[i - start]?.map (· % c.wordSize)).getD d.memory[i]
          else d.memory[i] } := by
  induction words generalizing start d with
  | nil => simp
  | cons word rest ih =>
    rw [List.zipIdx_cons, List.foldl_cons, ih]
    unfold store
    congr 1
    ext i hi
    simp only [Vector.getElem_ofFn]
    by_cases first : start = i
    · subst first
      have later : ¬start + 1 ≤ start := by omega
      simp [later]
    · by_cases behind : start ≤ i
      · have later : start + 1 ≤ i := by omega
        have next : i - start = i - (start + 1) + 1 := by omega
        simp [behind, later, first, next]
      · have later : ¬start + 1 ≤ i := by omega
        simp [behind, later, first]

theorem loadInPlace_run (image : Array Word) (d : Datapath c δ) :
    (loadInPlace image).run d = inPlace d (d.load image) := by
  unfold loadInPlace load
  by_cases fits : image.size ≤ c.memorySize
  · rw [if_neg (Nat.not_lt.mpr fits), if_pos fits]
    refine (forM_store_run image.toList.zipIdx _).trans ?_
    rw [foldl_store]
    congr
    funext i
    by_cases hi : i.val < image.size <;> simp [hi]
  · rw [if_pos (Nat.lt_of_not_le fits), if_neg fits]
    rfl

theorem writeCellInPlace_run (address : Nat) (value : Word) (d : Datapath c δ) :
    (writeCellInPlace address value).run d = inPlace d (d.writeCell address value) := by
  unfold writeCellInPlace writeCell
  by_cases inside : address < c.memorySize
  · rw [if_neg (Nat.not_le.mpr inside), dif_pos inside]
    have stored : d.store address value =
        { d with memory := d.memory.set address (value % c.wordSize) inside } := by
      unfold store
      congr 1
      ext i hi
      simp [Vector.getElem_setIfInBounds, Vector.getElem_set]
    exact congrArg _ stored
  · rw [if_pos (Nat.le_of_not_lt inside), dif_neg inside]
    rfl

end Datapath

namespace Machine

variable {arch : Architecture} {δ : Type}

/-- A request to the datapath of a machine, which keeps what is left of it, refused or not. -/
def onDatapath {α : Type} (request : EStateM RequestFault (Datapath arch.toCircuit δ) α) :
    EStateM RequestFault (Machine arch δ) α := fun m =>
  match request.run m.datapath with
  | .ok answer datapath => .ok answer { m with datapath }
  | .error fault datapath => .error fault { m with datapath }

theorem onDatapath_run {request : EStateM RequestFault (Datapath arch.toCircuit δ) Unit}
    {m : Machine arch δ} {outcome : Except RequestFault (Datapath arch.toCircuit δ)}
    (h : request.run m.datapath = inPlace m.datapath outcome) :
    (onDatapath request).run m =
      inPlace m (outcome.map fun datapath => { m with datapath }) := by
  show onDatapath request m = _
  unfold onDatapath
  rw [h]
  cases outcome <;> rfl

def loadInPlace (image : Array Word) : EStateM RequestFault (Machine arch δ) Unit :=
  onDatapath (Datapath.loadInPlace image)

theorem loadInPlace_run (image : Array Word) (m : Machine arch δ) :
    (loadInPlace image).run m = inPlace m (m.load image) := by
  unfold loadInPlace load
  rw [onDatapath_run (Datapath.loadInPlace_run image m.datapath)]
  cases m.datapath.load image <;> rfl

end Machine

end BusMachine
