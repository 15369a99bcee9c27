import BusMachine.CommandLine.Execute
import BusMachine.Proofs.Assembly.Loading

/-!
Written images. What `build` writes is read back without loss, and a new machine that the words are
loaded into is the machine that `run` starts: the two commands mean the same program.
-/

namespace BusMachine.CommandLine

def bytesPerWord (wordSize : Nat) : Nat := if wordSize ≤ 256 then 1 else 2

def wordBytes (wordSize : Nat) (w : Word) : List UInt8 :=
  if wordSize ≤ 256 then [UInt8.ofNat w] else [UInt8.ofNat w, UInt8.ofNat (w / 256)]

/-- Words of two bytes, the low one first. -/
def pairedWords : List UInt8 → List Word
  | low :: high :: rest => (low.toNat + 256 * high.toNat) :: pairedWords rest
  | _ => []

def decodeWords (wordSize : Nat) (bytes : ByteArray) : Array Word :=
  if wordSize ≤ 256 then bytes.data.map UInt8.toNat else (pairedWords bytes.data.toList).toArray

theorem length_wordBytes (wordSize : Nat) (w : Word) :
    (wordBytes wordSize w).length = bytesPerWord wordSize := by
  unfold wordBytes bytesPerWord
  split <;> rfl

theorem foldl_push (wordSize : Nat) {push : ByteArray → Word → ByteArray}
    (hpush : ∀ bytes w, (push bytes w).data.toList = bytes.data.toList ++ wordBytes wordSize w)
    (words : List Word) (bytes : ByteArray) :
    (words.foldl push bytes).data.toList =
      bytes.data.toList ++ words.flatMap (wordBytes wordSize) := by
  induction words generalizing bytes with
  | nil => simp
  | cons w words ih => rw [List.foldl_cons, ih, hpush, List.flatMap_cons, List.append_assoc]

theorem encodeWords_data (wordSize : Nat) (words : Array Word) :
    (encodeWords wordSize words).data.toList = words.toList.flatMap (wordBytes wordSize) := by
  unfold encodeWords
  split
  · rename_i narrow
    rw [← Array.foldl_toList, foldl_push wordSize fun bytes w => by simp [wordBytes, narrow]]
    rfl
  · rename_i wide
    rw [← Array.foldl_toList, foldl_push wordSize fun bytes w => by simp [wordBytes, wide]]
    rfl

theorem size_encodeWords (wordSize : Nat) (words : Array Word) :
    (encodeWords wordSize words).size = words.size * bytesPerWord wordSize := by
  rw [ByteArray.size, ← Array.length_toList, encodeWords_data, List.length_flatMap]
  simp [length_wordBytes]

theorem flatMap_wordBytes_of_narrow {wordSize : Nat} (narrow : wordSize ≤ 256) (words : List Word)
    (h : ∀ w ∈ words, w < wordSize) :
    (words.flatMap (wordBytes wordSize)).map UInt8.toNat = words := by
  induction words with
  | nil => rfl
  | cons w words ih =>
    have hw : w < wordSize := h w List.mem_cons_self
    have kept : w % 256 = w := Nat.mod_eq_of_lt (Nat.lt_of_lt_of_le hw narrow)
    have rest := ih fun v hv => h v (List.mem_cons_of_mem _ hv)
    rw [List.flatMap_cons, List.map_append, rest]
    simp [wordBytes, narrow, kept]

theorem pairedWords_flatMap {wordSize : Nat} (wide : ¬wordSize ≤ 256) (words : List Word)
    (h : ∀ w ∈ words, w < addressSpace) :
    pairedWords (words.flatMap (wordBytes wordSize)) = words := by
  induction words with
  | nil => rfl
  | cons w words ih =>
    have high_lt : w / 256 < 256 := Nat.div_lt_of_lt_mul (h w List.mem_cons_self)
    have joined : w % 256 + 256 * (w / 256 % 256) = w := by
      rw [Nat.mod_eq_of_lt high_lt, Nat.mod_add_div]
    have rest := ih fun v hv => h v (List.mem_cons_of_mem _ hv)
    rw [List.flatMap_cons, wordBytes, if_neg wide]
    simp [pairedWords, rest, joined]

theorem decodeWords_encodeWords {wordSize : Nat} (hsize : wordSize ≤ addressSpace)
    {words : Array Word} (h : ∀ w ∈ words, w < wordSize) :
    decodeWords wordSize (encodeWords wordSize words) = words := by
  have inside : ∀ w ∈ words.toList, w < wordSize := fun w hw => h w (Array.mem_toList_iff.mp hw)
  unfold decodeWords
  split
  · rename_i narrow
    apply Array.ext'
    rw [Array.toList_map, encodeWords_data]
    exact flatMap_wordBytes_of_narrow narrow _ inside
  · rename_i wide
    rw [encodeWords_data, pairedWords_flatMap wide _ fun w hw =>
      Nat.lt_of_lt_of_le (inside w hw) hsize]

section Machine

variable {arch : Architecture} {δ : Type}

theorem fits_of_standardMachine {wordSize : Option Nat}
    (h : standardMachine wordSize = .ok arch) (strict : Bool) :
    (Assembly.Dialect.ofArchitecture arch strict).Fits := by
  have described := Architecture.build_ok_iff.mp (mapError_eq_ok_iff.mp h)
  refine ⟨arch.valid.wordSize_pos, fun i hi => ?_⟩
  have below := described.opcode_lt i hi
  rw [← described.params_eq] at below
  exact below

theorem exists_load_decodeWords {strict : Bool}
    (hfits : (Assembly.Dialect.ofArchitecture arch strict).Fits) (m : Machine arch δ)
    {source : String} {image : Assembly.Image}
    (h : Assembly.Image.ofSource (.ofArchitecture arch strict) arch.memorySize source = .ok image) :
    ∃ loaded, m.load (decodeWords arch.wordSize (encodeWords arch.wordSize image.words)) =
        .ok loaded ∧
      Assembly.loadSource m source strict = .ok (image.annotations, loaded) := by
  have words_lt : ∀ w ∈ image.words, w < arch.wordSize := Assembly.ofSource_lt hfits h
  rw [decodeWords_encodeWords arch.valid.wordSize_le words_lt]
  have compiled := Assembly.compile_of_ofSource m hfits h
  unfold Assembly.compile Assembly.loadSource at compiled
  unfold Assembly.loadSource
  rw [h] at compiled ⊢
  cases hload : m.load image.words with
  | error fault =>
    simp only [bind, Except.bind, hload] at compiled
    cases congrArg Prod.fst compiled
  | ok loaded =>
    refine ⟨loaded, rfl, ?_⟩
    simp only [bind, Except.bind, hload]
    rfl

end Machine

variable {options : Options} {files : FileSystem}

theorem run_of_loadSource {arch : Architecture} {source : Source} {annotations : Annotations}
    {machine : Machine arch ByteStreamDevice} (stdin : ByteArray)
    (harch : standardMachine options.wordSize = .ok arch)
    (hsource : openSource files options.input = .ok source)
    (hload : Assembly.loadSource (.new arch) source.program options.strict =
      .ok (annotations, machine)) :
    run options files stdin = .ok (runLoaded options files stdin machine) := by
  refine bind_eq_ok_iff.mpr ⟨arch, harch, bind_eq_ok_iff.mpr ⟨source, hsource, ?_⟩⟩
  exact bind_eq_ok_iff.mpr ⟨(annotations, machine), mapError_eq_ok_iff.mpr hload, rfl⟩

theorem exists_image_of_build {outcome : Outcome} (h : build options files = .ok outcome)
    (hexit : outcome.exitCode = 0) :
    ∃ arch source image, standardMachine options.wordSize = .ok arch ∧
      openSource files options.input = .ok source ∧
      Assembly.Image.ofSource (.ofArchitecture arch options.strict) arch.memorySize
        source.program = .ok image ∧
      files.write options.outputPath (encodeWords arch.wordSize image.words) =
        .ok outcome.files := by
  obtain ⟨arch, harch, h⟩ := bind_eq_ok_iff.mp h
  obtain ⟨source, hsource, h⟩ := bind_eq_ok_iff.mp h
  obtain ⟨image, himage, h⟩ := bind_eq_ok_iff.mp h
  refine ⟨arch, source, image, harch, hsource, mapError_eq_ok_iff.mp himage, ?_⟩
  dsimp only at h
  cases hwrite : files.write options.outputPath (encodeWords arch.wordSize image.words) with
  | error fault =>
    rw [hwrite] at h
    cases h
    cases hexit
  | ok written =>
    rw [hwrite] at h
    cases h
    rfl

/-- The program that `build` writes is the one that `run` executes. For every word size the bytes of
words in range are read back as these words. For every source that assembles for one of the machines
of the command line they are as many as the words ask for, and a new machine that the words read
back are loaded into is, memory and all, a new machine that the source was assembled into. So `run`
does what a machine does that was loaded from the file which `build` has written. -/
theorem run_executes_written_image (δ : Type) :
    (∀ params : Parameters, params.Valid → ∀ words : Array Word,
      (∀ w ∈ words, w < params.wordSize) →
        decodeWords params.wordSize (encodeWords params.wordSize words) = words) ∧
    (∀ (wordSize : Option Nat) (arch : Architecture), standardMachine wordSize = .ok arch →
      ∀ (source : String) (strict : Bool) (image : Assembly.Image),
        Assembly.Image.ofSource (.ofArchitecture arch strict) arch.memorySize source = .ok image →
        (encodeWords arch.wordSize image.words).size =
          image.words.size * bytesPerWord arch.wordSize ∧
        ∃ loaded : Machine arch δ,
          (Machine.new arch).load
            (decodeWords arch.wordSize (encodeWords arch.wordSize image.words)) = .ok loaded ∧
          Assembly.loadSource (.new arch) source strict = .ok (image.annotations, loaded)) ∧
    ∀ (options : Options) (files : FileSystem) (outcome : Outcome),
      build options files = .ok outcome → outcome.exitCode = 0 →
        ∃ arch bytes loaded, standardMachine options.wordSize = .ok arch ∧
          files.write options.outputPath bytes = .ok outcome.files ∧
          (Machine.new arch).load (decodeWords arch.wordSize bytes) = .ok loaded ∧
          ∀ stdin, run options files stdin = .ok (runLoaded options files stdin loaded) := by
  refine ⟨fun params valid words => decodeWords_encodeWords valid.wordSize_le, ?_, ?_⟩
  · intro wordSize arch harch source strict image himage
    exact ⟨size_encodeWords _ _,
      exists_load_decodeWords (fits_of_standardMachine harch strict) _ himage⟩
  · intro options files outcome hbuild hexit
    obtain ⟨arch, source, image, harch, hsource, himage, hwrite⟩ :=
      exists_image_of_build hbuild hexit
    obtain ⟨loaded, hload, hsourced⟩ :=
      exists_load_decodeWords (fits_of_standardMachine harch options.strict) (.new arch) himage
    exact ⟨arch, _, loaded, harch, hwrite, hload,
      fun stdin => run_of_loadSource stdin harch hsource hsourced⟩

theorem spacious_valid : Parameters.Valid { wordSize := 4096, memorySize := 4096 } :=
  ⟨by decide, by decide, by decide, by decide, by decide, by decide⟩

def spaciousArchitecture : Architecture :=
  Standard.architecture { wordSize := 4096, memorySize := 4096 } spacious_valid

theorem standardMachine_spacious : standardMachine (some 4096) = .ok spaciousArchitecture := by
  unfold standardMachine
  exact mapError_eq_ok_iff.mpr (Standard.standard_ok_iff.mpr ⟨spacious_valid, by decide, rfl⟩)

theorem run_executes_written_image_spacious : ∃ loaded : Machine spaciousArchitecture Unit,
    (Machine.new spaciousArchitecture).load
      (decodeWords 4096 ⟨#[0, 0, 17, 0, 232, 3, 2, 0]⟩) = .ok loaded ∧
    ∃ annotations, Assembly.loadSource (.new spaciousArchitecture) "loa 1000 hlt" true =
      .ok (annotations, loaded) := by
  have words : (Assembly.Image.ofSource (.ofArchitecture spaciousArchitecture true) 4096
      "loa 1000 hlt").toOption.map Assembly.Image.words = some #[0, 17, 1000, 2] := by rfl
  obtain ⟨image, himage, hwords⟩ := Option.map_eq_some_iff.mp words
  obtain ⟨-, hassembled, -⟩ := run_executes_written_image Unit
  obtain ⟨-, loaded, hload, hsource⟩ := hassembled _ _ standardMachine_spacious "loa 1000 hlt" true
    image (eq_ok_of_toOption himage)
  rw [hwords] at hload
  exact ⟨loaded, hload, image.annotations, hsource⟩

end BusMachine.CommandLine
