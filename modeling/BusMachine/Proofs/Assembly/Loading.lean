import BusMachine.Device.Queue
import BusMachine.Proofs.Architecture.Build
import BusMachine.Proofs.Assembly.Words
import BusMachine.Proofs.Machine.InPlace
import BusMachine.Proofs.Standard.Architecture

/-!
Assembling into a machine: memory receives exactly the assembled image with zeros behind it, or the
machine stays as it is. The machine never refuses or alters what was assembled for it.
-/

namespace BusMachine

namespace Assembly

variable {arch : Architecture} {δ : Type}

def compileInPlace (source : String) (strict : Bool) :
    EStateM Fault (Machine arch δ) Annotations := do
  let image ← MonadExcept.ofExcept
    (Image.ofSource (.ofArchitecture arch strict) arch.memorySize source)
  (Machine.loadInPlace image.words).adaptExcept fun fault => { cause := .ofLoading fault }
  return image.annotations

theorem compileInPlace_run (m : Machine arch δ) (source : String) (strict : Bool) :
    (compileInPlace source strict).run m =
      match loadSource m source strict with
      | .ok (annotations, m') => .ok annotations m'
      | .error fault => .error fault m := by
  unfold compileInPlace loadSource
  cases Image.ofSource (.ofArchitecture arch strict) arch.memorySize source with
  | error fault => rfl
  | ok image =>
    have loaded : Machine.loadInPlace image.words m = inPlace m (m.load image.words) :=
      Machine.loadInPlace_run image.words m
    show EStateM.bind (EStateM.adaptExcept _ (Machine.loadInPlace image.words)) _ m = _
    unfold EStateM.bind EStateM.adaptExcept
    simp only [loaded, bind, Except.bind]
    cases m.load image.words <;> rfl

/-- A machine with an image in its memory and zeros behind it. -/
def holding (m : Machine arch δ) (words : Array Word) : Machine arch δ :=
  { m with datapath := { m.datapath with memory := Vector.ofFn fun i => words.getD i 0 } }

theorem load_eq_holding (m : Machine arch δ) {words : Array Word}
    (hsize : words.size ≤ arch.memorySize) (hwords : ∀ w ∈ words, w < arch.wordSize) :
    m.load words = .ok (holding m words) := by
  have kept : ∀ i, words.getD i 0 % arch.wordSize = words.getD i 0 := by
    intro i
    apply Nat.mod_eq_of_lt
    by_cases hi : i < words.size
    · have hget : words.getD i 0 = words[i] := by simp [hi]
      rw [hget]
      exact hwords _ (Array.getElem_mem hi)
    · have hget : words.getD i 0 = 0 := by simp [hi]
      rw [hget]
      exact arch.valid.wordSize_pos
  unfold Machine.load Datapath.load holding
  simp only [hsize, if_true, kept]

theorem compile_of_ofSource (m : Machine arch δ) {source : String} {strict : Bool} {image : Image}
    (hwords : (Dialect.ofArchitecture arch strict).Fits)
    (h : Image.ofSource (.ofArchitecture arch strict) arch.memorySize source = .ok image) :
    compile m source strict = (.ok image.annotations, holding m image.words) := by
  have ⟨p, hparse, _⟩ := exists_program_of_ofSource h
  have ⟨isImage, hlength, _⟩ := isImage_of_ofSource h hparse
  have hsize : image.words.size ≤ arch.memorySize := isImage.size ▸ hlength
  unfold compile loadSource
  rw [h]
  simp only [bind, Except.bind, load_eq_holding m hsize (ofSource_lt hwords h)]
  rfl

theorem exists_image_of_compile {m m' : Machine arch δ} {source : String} {strict : Bool}
    {annotations : Annotations} (hwords : (Dialect.ofArchitecture arch strict).Fits)
    (h : compile m source strict = (.ok annotations, m')) :
    ∃ image, Image.ofSource (.ofArchitecture arch strict) arch.memorySize source = .ok image ∧
      m' = holding m image.words := by
  cases hsource : Image.ofSource (.ofArchitecture arch strict) arch.memorySize source with
  | error fault =>
    unfold compile loadSource at h
    rw [hsource] at h
    cases h
  | ok image =>
    rw [compile_of_ofSource m hwords hsource] at h
    exact ⟨image, rfl, (congrArg Prod.snd h).symm⟩

/-- What assembling into a machine of an accepted architecture comes to. It comes to the same if
memory is written on the spot, and a machine is as it was where that was refused. -/
theorem compile_exact {params : Parameters} {components : List Component}
    {instructions : List Instruction} {microcode : List NamedRoutine}
    (h : Architecture.build params components instructions microcode = .ok arch)
    (m : Machine arch δ) (source : String) (strict : Bool) :
    (match Image.ofSource (.ofArchitecture arch strict) params.memorySize source with
      | .error fault => compile m source strict = (.error fault, m)
      | .ok image =>
        compile m source strict = (.ok image.annotations, holding m image.words) ∧
        m.load image.words = .ok (holding m image.words) ∧
        image.words[0]? = some 0 ∧ 1 ≤ image.words.size ∧
        image.words.size ≤ params.memorySize ∧ ∀ w ∈ image.words, w < params.wordSize) ∧
    match (compileInPlace source strict).run m with
    | .ok annotations m' => compile m source strict = (.ok annotations, m')
    | .error fault m' => compile m source strict = (.error fault, m') ∧ m' = m := by
  obtain ⟨rfl, -, -, hopcodes, -⟩ := Architecture.build_ok_iff.mp h
  have fits : (Dialect.ofArchitecture arch strict).Fits := ⟨arch.valid.wordSize_pos, hopcodes⟩
  refine ⟨?_, ?_⟩
  · cases hsource : Image.ofSource (.ofArchitecture arch strict) arch.memorySize source with
    | error fault =>
      unfold compile loadSource
      rw [hsource]
      rfl
    | ok image =>
      have ⟨p, hparse, _⟩ := exists_program_of_ofSource hsource
      have ⟨isImage, hlength, _⟩ := isImage_of_ofSource hsource hparse
      have hsize : image.words.size ≤ arch.memorySize := isImage.size ▸ hlength
      have words_lt := ofSource_lt fits hsource
      refine ⟨compile_of_ofSource m fits hsource, load_eq_holding m hsize words_lt,
        isImage.reserved, ?_, hsize, words_lt⟩
      rw [isImage.size_eq]
      omega
  · rw [compileInPlace_run]
    unfold compile
    cases loadSource m source strict with
    | error fault => exact ⟨rfl, rfl⟩
    | ok loaded => rfl

def loadLetter : Program where
  code := [⟨.word 17, none, ⟨1, 1⟩⟩, ⟨.word 97, none, ⟨1, 5⟩⟩, ⟨.word 2, none, ⟨1, 8⟩⟩]

theorem compile_exact_default : ∃ image : Image,
    compile (.new Standard.defaultArchitecture : Machine _ QueueDevice) "loa 'a hlt" true =
      (.ok image.annotations, holding (.new Standard.defaultArchitecture) image.words) := by
  have parsed : (Program.parse (.ofArchitecture Standard.defaultArchitecture true)
      (Token.scan "loa 'a hlt")).toOption = some loadLetter := by decide +kernel
  have parsed : Program.parse (.ofArchitecture Standard.defaultArchitecture true)
      (Token.scan "loa 'a hlt") = .ok loadLetter := by
    cases hparse : Program.parse (.ofArchitecture Standard.defaultArchitecture true)
        (Token.scan "loa 'a hlt") with
    | error fault =>
      rw [hparse] at parsed
      cases parsed
    | ok p =>
      rw [hparse] at parsed
      exact congrArg Except.ok (Option.some.inj parsed)
  have assembled : Assembles _ 256 _ loadLetter := assembles_of_parse (by decide) parsed
  have resolvable : loadLetter.Resolvable 256 := Program.resolvable_iff.mpr (by decide)
  have ⟨image, himage⟩ := assembled.accepted.mpr ⟨by decide, resolvable⟩
  have exact := compile_exact Standard.standard_default
    (.new Standard.defaultArchitecture : Machine _ QueueDevice) "loa 'a hlt" true
  rw [himage] at exact
  exact ⟨image, exact.1.1⟩

end Assembly

end BusMachine
