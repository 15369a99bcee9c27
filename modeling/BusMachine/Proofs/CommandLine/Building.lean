import BusMachine.Proofs.CommandLine.Encoding
import BusMachine.Proofs.FileSystem.Path

/-!
What a build does to the files. Unless it is told otherwise, it puts the image beside its input,
under the stem of it with `.bin` behind, and changes nothing else. So the input is lost if that is
its own name already.
-/

namespace BusMachine.CommandLine

/-- The stem of the image of a file with a stem, which loses the extension `.b8` as well. -/
def imageStem (stem : String) : String :=
  match stem.toList.reverse with
  | '8' :: 'b' :: '.' :: rest => String.ofList rest.reverse
  | _ => stem

def imageName (input : String) : String :=
  imageStem ((Path.fileStem? input).getD "out") ++ ".bin"

theorem imagePath_eq (input : String) :
    imagePath input = Path.join (Path.parent input) (imageName input) :=
  rfl

theorem imageStem_of_suffix (stem : String) : imageStem (stem ++ ".b8") = stem := by
  have reversed : (stem ++ ".b8").toList.reverse = '8' :: 'b' :: '.' :: stem.toList.reverse := by
    simp
  unfold imageStem
  rw [reversed]
  simp

theorem exists_eq_append_of_suffix {text suffix : String} (h : suffix.toList <:+ text.toList) :
    ∃ front, text = front ++ suffix := by
  obtain ⟨front, hfront⟩ := h
  refine ⟨String.ofList front, ?_⟩
  rw [← String.toList_inj, ← hfront]
  simp

theorem imageStem_of_not_suffix {stem : String} (h : ¬".b8".toList <:+ stem.toList) :
    imageStem stem = stem := by
  unfold imageStem
  split
  · rename_i rest hrest
    refine absurd ⟨rest.reverse, ?_⟩ h
    rw [← List.reverse_reverse stem.toList, hrest]
    simp
  · rfl

/-- A file whose image has the name of the file itself: one with the extension `.bin`, unless the
stem ends in `.b8`. -/
def NamesItself (input : String) : Prop :=
  ∃ stem, Path.fileStem? input = some stem ∧ Path.extension? input = some "bin" ∧
    ¬".b8".toList <:+ stem.toList

theorem splitName_cases (name : String) : Path.splitName name = (name, none) ∨
    ∃ stem ext, Path.splitName name = (stem, some ext) ∧ name = stem ++ ("." ++ ext) := by
  unfold Path.splitName
  dsimp only
  split
  · rename_i dot first rest hdrop
    obtain rfl : dot = '.' := by
      have stopped := List.head?_dropWhile_not (· != '.') name.toList.reverse
      rw [hdrop] at stopped
      simpa using stopped
    refine .inr ⟨_, _, rfl, ?_⟩
    have whole := List.takeWhile_append_dropWhile (p := (· != '.')) (l := name.toList.reverse)
    rw [hdrop] at whole
    generalize name.toList.reverse.takeWhile (· != '.') = ext at whole ⊢
    rw [← String.toList_inj, ← List.reverse_reverse name.toList, ← whole]
    simp
  · exact .inl rfl

theorem eq_imageName_iff {input name : String} (h : Path.fileName? input = some name) :
    name = imageName input ↔ NamesItself input := by
  have stem : Path.fileStem? input = some (Path.splitName name).1 := by
    unfold Path.fileStem?
    rw [h]
    rfl
  have extension : Path.extension? input = (Path.splitName name).2 := by
    unfold Path.extension?
    rw [h]
    rfl
  unfold NamesItself imageName
  rw [stem, extension, Option.getD_some]
  obtain whole | ⟨stem, ext, cut, hname⟩ := splitName_cases name
  · -- a name without an extension is shorter than that of its image
    rw [whole]
    refine iff_of_false (fun heq => ?_) (by simp)
    by_cases marked : ".b8".toList <:+ name.toList
    · obtain ⟨front, rfl⟩ := exists_eq_append_of_suffix marked
      rw [imageStem_of_suffix] at heq
      simp at heq
    · rw [imageStem_of_not_suffix marked] at heq
      simpa using congrArg String.length heq
  · rw [cut]
    by_cases marked : ".b8".toList <:+ stem.toList
    · refine iff_of_false (fun heq => ?_) ?_
      · obtain ⟨front, rfl⟩ := exists_eq_append_of_suffix marked
        rw [imageStem_of_suffix, hname, String.append_assoc, String.append_right_inj] at heq
        simpa using congrArg String.toList heq
      · rintro ⟨stem', hstem, -, unmarked⟩
        exact unmarked (Option.some.inj hstem ▸ marked)
    · rw [imageStem_of_not_suffix marked, hname, String.append_right_inj]
      constructor
      · intro heq
        have written : ".bin" = "." ++ "bin" := by decide
        rw [written, String.append_right_inj] at heq
        exact ⟨stem, rfl, congrArg some heq, marked⟩
      · rintro ⟨-, -, hext, -⟩
        rw [Option.some.inj hext]
        rfl

theorem fileName?_eq {input : String} {last : List Char} {rest : List (List Char)}
    (h : Path.dropIdle (Path.parts input.toList).reverse = last :: rest) :
    Path.fileName? input =
      if Path.isIdle last || last == ['.', '.'] then none else some (String.ofList last) := by
  unfold Path.fileName?
  rw [h]

theorem slash_not_mem_fileName {input name : String} (h : Path.fileName? input = some name) :
    '/' ∉ name.toList := by
  obtain ⟨last, rest, hdrop⟩ := List.exists_cons_of_ne_nil
    (Path.dropIdle_ne_nil (List.reverse_ne_nil_iff.mpr (Path.parts_ne_nil input.toList)))
  rw [fileName?_eq hdrop] at h
  split at h
  · cases h
  · have part := Path.mem_of_mem_dropIdle (hdrop ▸ List.mem_cons_self)
    rw [← Option.some.inj h, String.toList_ofList]
    exact Path.slash_not_mem_parts _ last (List.mem_reverse.mp part)

theorem slash_not_mem_imageStem {stem : String} (h : '/' ∉ stem.toList) :
    '/' ∉ (imageStem stem).toList := by
  by_cases marked : ".b8".toList <:+ stem.toList
  · obtain ⟨front, rfl⟩ := exists_eq_append_of_suffix marked
    rw [imageStem_of_suffix]
    rw [String.toList_append] at h
    exact fun hmem => h (List.mem_append_left _ hmem)
  · rw [imageStem_of_not_suffix marked]
    exact h

theorem slash_not_mem_imageName (input : String) : '/' ∉ (imageName input).toList := by
  have stem : '/' ∉ ((Path.fileStem? input).getD "out").toList := by
    unfold Path.fileStem?
    cases hname : Path.fileName? input with
    | none => decide
    | some name =>
      have noSlash := slash_not_mem_fileName hname
      obtain whole | ⟨stem, ext, cut, rfl⟩ := splitName_cases name
      · simpa [whole] using noSlash
      · rw [String.toList_append] at noSlash
        simpa [cut] using fun hmem => noSlash (List.mem_append_left _ hmem)
  unfold imageName
  rw [String.toList_append, List.mem_append, not_or]
  exact ⟨slash_not_mem_imageStem stem, by decide⟩

theorem getLast?_imageName (input : String) : (imageName input).toList.getLast? = some 'n' := by
  unfold imageName
  simp

theorem toList_imageName_ne {part : List Char} (h : part.getLast? ≠ some 'n') (input : String) :
    (imageName input).toList ≠ part := by
  rintro rfl
  exact h (getLast?_imageName input)

theorem imageName_ne {name : String} (h : name.toList.getLast? ≠ some 'n') (input : String) :
    imageName input ≠ name := by
  rintro rfl
  exact toList_imageName_ne h input rfl

theorem enter_imageName (input : String) (here : Location) :
    here.enter (imageName input) = here ++ [imageName input] := by
  refine Location.enter_name ?_ (imageName_ne (by decide) input) here
  unfold Path.isIdle
  rw [Bool.or_eq_false_iff, beq_eq_false_iff_ne, beq_eq_false_iff_ne]
  exact ⟨toList_imageName_ne (by decide) input, toList_imageName_ne (by decide) input⟩

/-- The parts of an input and those of its image: the same directory in front of two names. -/
structure Beside (input : String) (front inner : List (List Char)) (last : List Char)
    (idle : List (List Char)) : Prop where
  input_eq : Path.parts input.toList = front ++ (inner ++ last :: idle)
  image_eq : Path.parts (imagePath input).toList = front ++ [(imageName input).toList]
  inner_idle : ∀ part ∈ inner, Path.isIdle part = true
  idle_idle : ∀ part ∈ idle, Path.isIdle part = true
  alone : front = [] → inner = []
  name : Path.fileName? input =
    if Path.isIdle last || last == ['.', '.'] then none else some (String.ofList last)

theorem exists_beside (input : String) :
    ∃ front inner last idle, Beside input front inner last idle := by
  obtain ⟨last, rest, hdrop⟩ := List.exists_cons_of_ne_nil
    (Path.dropIdle_ne_nil (List.reverse_ne_nil_iff.mpr (Path.parts_ne_nil input.toList)))
  obtain ⟨idle, hsplit, hidle⟩ := Path.dropIdle_eq (Path.parts input.toList).reverse
  obtain ⟨inner, hrest, hinner⟩ := Path.dropIdle_eq rest
  rw [hdrop] at hsplit
  have whole : Path.parts input.toList =
      (Path.dropIdle rest).reverse ++ (inner.reverse ++ last :: idle.reverse) := by
    rw [← List.reverse_reverse (Path.parts input.toList), hsplit, ← List.append_assoc,
      ← List.reverse_append, ← hrest]
    simp
  have image : Path.parts (imagePath input).toList =
      (Path.dropIdle rest).reverse ++ [(imageName input).toList] := by
    rw [imagePath_eq]
    exact Path.parts_join_parent hdrop (slash_not_mem_imageName input)
  refine ⟨(Path.dropIdle rest).reverse, inner.reverse, last, idle.reverse, whole, image,
    by simpa using hinner, by simpa using hidle, fun hfront => ?_, fileName?_eq hdrop⟩
  cases rest with
  | nil =>
    rw [Path.dropIdle, List.append_nil] at hrest
    rw [← hrest]
    rfl
  | cons part rest =>
    exact absurd (List.reverse_eq_nil_iff.mp hfront) (Path.dropIdle_ne_nil (List.cons_ne_nil _ _))

section Places

variable {input : String} {front inner idle : List (List Char)} {last : List Char}
  (h : Beside input front inner last idle)
include h

theorem Beside.startOf_image (hfront : front ≠ []) :
    Location.startOf (imagePath input).toList = Location.startOf input.toList := by
  obtain ⟨first, front, rfl⟩ := List.exists_cons_of_ne_nil hfront
  have long : 1 ≤ front.length + (inner.length + (idle.length + 1)) := by omega
  rw [Location.startOf_eq, Location.startOf_eq, h.image_eq, h.input_eq]
  simp [long]

theorem Beside.startOf_image_of_alone (hfront : front = []) :
    Location.startOf (imagePath input).toList = [] := by
  rw [Location.startOf_eq, h.image_eq, hfront]
  simp

theorem Beside.ofPath_image : Location.ofPath (imagePath input) =
    (Location.startOf (imagePath input).toList).walk front ++ [imageName input] := by
  rw [Location.ofPath_eq_walk, h.image_eq, Location.walk_append, ← enter_imageName]
  simp [Location.walk]

theorem Beside.ofPath_input : Location.ofPath input =
    ((Location.startOf input.toList).walk front).enter (String.ofList last) := by
  rw [Location.ofPath_eq_walk, h.input_eq, Location.walk_append, Location.walk_append,
    Location.walk_of_isIdle h.inner_idle]
  exact Location.walk_of_isIdle h.idle_idle _

theorem Beside.ofPath_input_cases :
    Location.ofPath input = ((Location.startOf (imagePath input).toList).walk front).enter
        (String.ofList last) ∨
      Path.isIdle last = true ∧ Location.ofPath input = ["/"] := by
  by_cases hfront : front = []
  · rw [h.ofPath_input, h.startOf_image_of_alone hfront, hfront, Location.startOf_eq]
    split
    · rename_i rooted
      obtain ⟨hhead, -⟩ := rooted
      rw [h.input_eq, hfront, h.alone hfront] at hhead
      obtain rfl : last = [] := Option.some.inj hhead
      exact .inr ⟨rfl, rfl⟩
    · exact .inl rfl
  · rw [h.startOf_image hfront]
    exact .inl h.ofPath_input

theorem Beside.follow_image {files : FileSystem} {place : Location}
    (hplace : files.follow (Location.route input).1 (Location.route input).2 = .ok place) :
    files.follow (Location.route (imagePath input)).1 (Location.route (imagePath input)).2 =
      .ok (Location.ofPath (imagePath input)) := by
  rw [FileSystem.follow_route] at hplace
  have followed : ∃ place, files.follow (Location.startOf (imagePath input).toList)
      ((Path.parts (imagePath input).toList).map String.ofList) = .ok place := by
    rw [h.image_eq]
    by_cases hfront : front = []
    · rw [h.startOf_image_of_alone hfront, hfront]
      exact ⟨_, rfl⟩
    · rw [h.input_eq, List.map_append] at hplace
      obtain ⟨part, parts, hparts⟩ := List.exists_cons_of_ne_nil
        (l := (inner ++ last :: idle).map String.ofList) (by simp)
      rw [hparts, ← h.startOf_image hfront] at hplace
      rw [List.map_append]
      exact ⟨_, FileSystem.follow_neighbour hplace _⟩
  obtain ⟨place', hplace'⟩ := followed
  rw [← FileSystem.follow_route] at hplace'
  rw [hplace', FileSystem.foldl_of_follow hplace']
  rfl

theorem Beside.ofPath_image_ne (nameless : (Path.isIdle last || last == ['.', '.']) = true) :
    Location.ofPath (imagePath input) ≠ Location.ofPath input := by
  intro heq
  rw [Bool.or_eq_true, beq_iff_eq] at nameless
  rw [h.ofPath_image] at heq
  obtain beside | ⟨-, root⟩ := h.ofPath_input_cases
  · rw [beside] at heq
    generalize (Location.startOf (imagePath input).toList).walk front = directory at heq
    obtain hidle | rfl := nameless
    · rw [Location.enter_of_isIdle hidle] at heq
      simpa using congrArg List.length heq
    · have up : directory ++ [imageName input] = directory.enter ".." := heq
      obtain above | inside := Location.enter_up directory
      · rw [above, List.append_cancel_left_eq, List.cons.injEq] at up
        exact imageName_ne (by decide) input up.1
      · rw [← up, List.length_append, List.length_singleton] at inside
        omega
  · rw [root] at heq
    have last := congrArg List.getLast? heq
    rw [List.getLast?_concat] at last
    exact imageName_ne (by decide) input (Option.some.inj last)

theorem Beside.ofPath_input_of_named (named : ¬(Path.isIdle last || last == ['.', '.']) = true) :
    Location.ofPath input =
      (Location.startOf (imagePath input).toList).walk front ++ [String.ofList last] := by
  rw [Bool.not_eq_true, Bool.or_eq_false_iff, beq_eq_false_iff_ne] at named
  rw [h.ofPath_input_cases.resolve_right fun root => by simp [named.1] at root]
  refine Location.enter_name (by simpa using named.1) (fun heq => named.2 ?_) _
  have written := congrArg String.toList heq
  simpa using written

end Places

theorem ofPath_imagePath_eq_iff (input : String) :
    Location.ofPath (imagePath input) = Location.ofPath input ↔ NamesItself input := by
  obtain ⟨front, inner, last, idle, h⟩ := exists_beside input
  have name := h.name
  split at name
  · rename_i nameless
    refine iff_of_false (h.ofPath_image_ne nameless) ?_
    rintro ⟨stem, hstem, -⟩
    rw [Path.fileStem?, name] at hstem
    cases hstem
  · rename_i named
    rw [h.ofPath_image, h.ofPath_input_of_named named, List.append_cancel_left_eq, List.cons.injEq,
      and_iff_left rfl, eq_comm]
    exact eq_imageName_iff name

theorem Refusal.exitCode_ne_zero (refusal : Refusal) : refusal.exitCode ≠ 0 := by
  cases refusal <;> exact nofun

theorem write_image {files : FileSystem} {input : String} {content : ByteArray}
    (h : files.read input = .ok content) (bytes : ByteArray) :
    files.write (imagePath input) bytes =
      if files.isDirectory (Location.ofPath (imagePath input)) then .error .isDirectory
      else .ok (files.put (Location.ofPath (imagePath input)) bytes) := by
  obtain ⟨front, inner, last, idle, beside⟩ := exists_beside input
  obtain ⟨-, hplace, -⟩ := FileSystem.read_eq_ok_iff.mp h
  refine FileSystem.write_eq ?_ (toList_imageName_ne (by decide) input) (beside.follow_image hplace)
  rw [beside.image_eq, List.getLast?_concat]

/-- What a build makes of its options and the files, before anything is written. -/
structure Assembles (options : Options) (files : FileSystem) (arch : Architecture)
    (image : Assembly.Image) : Prop where
  machine : standardMachine options.wordSize = .ok arch
  image : ∃ source, openSource files options.input = .ok source ∧
    Assembly.Image.ofSource (.ofArchitecture arch options.strict) arch.memorySize
      source.program = .ok image

section Build

variable {options : Options} {files : FileSystem} {arch : Architecture} {image : Assembly.Image}

theorem exists_read_of_openSource {source : Source}
    (h : openSource files options.input = .ok source) :
    ∃ content, files.read options.input = .ok content := by
  unfold openSource at h
  split at h
  · rename_i text htext
    obtain ⟨content, hread, -⟩ := bind_eq_ok_iff.mp htext
    exact ⟨content, hread⟩
  · cases h

theorem exists_assembles_of_build {outcome : Outcome} (h : build options files = .ok outcome) :
    ∃ arch image, Assembles options files arch image := by
  obtain ⟨arch, harch, h⟩ := bind_eq_ok_iff.mp h
  obtain ⟨source, hsource, h⟩ := bind_eq_ok_iff.mp h
  obtain ⟨image, himage, -⟩ := bind_eq_ok_iff.mp h
  exact ⟨arch, image, harch, source, hsource, mapError_eq_ok_iff.mp himage⟩

theorem build_of_assembles (h : Assembles options files arch image) :
    (∀ fault,
        files.write options.outputPath (encodeWords arch.wordSize image.words) = .error fault →
      build options files = .ok (.unwritten files fault)) ∧
    ∀ written,
        files.write options.outputPath (encodeWords arch.wordSize image.words) = .ok written →
      ∃ stdout stderr, build options files = .ok { files := written, stdout, stderr } := by
  obtain ⟨source, hsource, himage⟩ := h.image
  have assembled : (Assembly.Image.ofSource (.ofArchitecture arch options.strict) arch.memorySize
      source.program).mapError (Refusal.assembly source.path) = .ok image :=
    mapError_eq_ok_iff.mpr himage
  unfold build
  rw [h.machine]
  simp only [hsource, assembled, bind, Except.bind]
  constructor
  · intro fault hfault
    rw [hfault]
    rfl
  · intro written hwritten
    rw [hwritten]
    exact ⟨_, _, rfl⟩

theorem exists_outcome_of_assembles (h : Assembles options files arch image)
    (houtput : options.output = none) :
    ∃ outcome, build options files = .ok outcome ∧
      if files.isDirectory (Location.ofPath (imagePath options.input)) then
        outcome.exitCode = 1 ∧ outcome.files = files
      else outcome.exitCode = 0 ∧
        outcome.files = files.put (Location.ofPath (imagePath options.input))
          (encodeWords arch.wordSize image.words) := by
  obtain ⟨source, hsource, -⟩ := h.image
  obtain ⟨content, hread⟩ := exists_read_of_openSource hsource
  have output : options.outputPath = imagePath options.input := by
    unfold Options.outputPath
    rw [houtput]
    rfl
  have written := write_image hread (encodeWords arch.wordSize image.words)
  rw [← output] at written ⊢
  obtain ⟨refused, accepted⟩ := build_of_assembles h
  split at written
  · rename_i blocked
    refine ⟨_, refused _ written, ?_⟩
    rw [if_pos blocked]
    exact ⟨rfl, rfl⟩
  · rename_i free
    obtain ⟨stdout, stderr, built⟩ := accepted _ written
    refine ⟨_, built, ?_⟩
    rw [if_neg free]
    exact ⟨rfl, rfl⟩

end Build

theorem execute_build {arguments : List String} {options : Options}
    (h : Request.parse arguments = .ok (.command (.build options))) (files : FileSystem)
    (stdin : ByteArray) : execute arguments files stdin = match build options files with
      | .ok outcome => outcome
      | .error refusal => .failed files refusal.exitCode refusal.message := by
  unfold execute
  rw [h]
  rfl

theorem standardMachine_none : standardMachine none = .ok Standard.defaultArchitecture := by
  unfold standardMachine
  exact mapError_eq_ok_iff.mpr Standard.standard_default

theorem exists_assembles_halt {files : FileSystem} {input : String} {source : Source}
    (h : openSource files input = .ok source) (hprogram : source.program = "hlt") :
    ∃ image, Assembles { input } files Standard.defaultArchitecture image ∧
      encodeWords 256 image.words = ⟨#[0, 2]⟩ := by
  have words : (Assembly.Image.ofSource (.ofArchitecture Standard.defaultArchitecture false) 256
      "hlt").toOption.map Assembly.Image.words = some #[0, 2] := by rfl
  obtain ⟨image, himage, hwords⟩ := Option.map_eq_some_iff.mp words
  refine ⟨image, ⟨standardMachine_none, source, h, ?_⟩, ?_⟩
  · rw [hprogram]
    exact eq_ok_of_toOption himage
  · rw [hwords]
    rfl

end BusMachine.CommandLine
