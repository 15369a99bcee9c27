import BusMachine.FileSystem
import BusMachine.Proofs.Acceptance

/-!
Paths and the places that they lead to. A path is its parts with slashes between them; the parts
that lead nowhere make no difference to the place, so that the place of a file is that of its
directory with the file name behind it.
-/

namespace BusMachine

namespace Path

theorem parts_slash_cons (cs : List Char) : parts ('/' :: cs) = [] :: parts cs := rfl

theorem parts_ne_nil (cs : List Char) : parts cs ≠ [] := by
  cases cs with
  | nil => simp [parts]
  | cons c cs =>
    unfold parts
    rw [List.foldr_cons]
    split
    · simp
    · split <;> simp

theorem parts_cons_of_ne {c : Char} (hc : c ≠ '/') (cs : List Char) :
    ∃ part rest, parts cs = part :: rest ∧ parts (c :: cs) = (c :: part) :: rest := by
  obtain ⟨part, rest, hparts⟩ := List.exists_cons_of_ne_nil (parts_ne_nil cs)
  refine ⟨part, rest, hparts, ?_⟩
  unfold parts at hparts ⊢
  rw [List.foldr_cons, if_neg hc, hparts]

theorem slash_not_mem_parts (cs : List Char) : ∀ part ∈ parts cs, '/' ∉ part := by
  induction cs with
  | nil => simp [parts]
  | cons c cs ih =>
    by_cases hc : c = '/'
    · rw [hc, parts_slash_cons]
      exact List.forall_mem_cons.mpr ⟨by simp, ih⟩
    · obtain ⟨part, rest, hcs, hparts⟩ := parts_cons_of_ne hc cs
      rw [hcs] at ih
      rw [hparts]
      obtain ⟨hpart, hrest⟩ := List.forall_mem_cons.mp ih
      exact List.forall_mem_cons.mpr ⟨by simp [hpart, Ne.symm hc], hrest⟩

theorem parts_append_slash (cs more : List Char) :
    parts (cs ++ '/' :: more) = parts cs ++ parts more := by
  induction cs with
  | nil => rfl
  | cons c cs ih =>
    by_cases hc : c = '/'
    · rw [hc, List.cons_append, parts_slash_cons, ih, parts_slash_cons, List.cons_append]
    · obtain ⟨part, rest, hcs, hcons⟩ := parts_cons_of_ne hc cs
      obtain ⟨part', rest', hjoined, hcons'⟩ := parts_cons_of_ne hc (cs ++ '/' :: more)
      rw [ih, hcs, List.cons_append] at hjoined
      obtain ⟨rfl, rfl⟩ := List.cons.inj hjoined
      rw [List.cons_append, hcons', hcons, List.cons_append]

theorem parts_of_not_mem {part : List Char} (h : '/' ∉ part) : parts part = [part] := by
  induction part with
  | nil => rfl
  | cons c part ih =>
    obtain ⟨hc, hpart⟩ := not_or.mp (mt List.mem_cons.mpr h)
    obtain ⟨first, rest, hparts, hcons⟩ := parts_cons_of_ne (Ne.symm hc) part
    rw [ih hpart] at hparts
    obtain ⟨rfl, rfl⟩ := List.cons.inj hparts
    exact hcons

theorem parts_intercalate {l : List (List Char)} (hne : l ≠ []) (h : ∀ part ∈ l, '/' ∉ part) :
    parts (['/'].intercalate l) = l := by
  induction l with
  | nil => exact absurd rfl hne
  | cons part l ih =>
    obtain ⟨hpart, hl⟩ := List.forall_mem_cons.mp h
    cases l with
    | nil => simpa [List.intercalate] using parts_of_not_mem hpart
    | cons next l =>
      have joined : ['/'].intercalate (part :: next :: l) =
          part ++ '/' :: ['/'].intercalate (next :: l) := by
        simp [List.intercalate]
      rw [joined, parts_append_slash, parts_of_not_mem hpart, ih (List.cons_ne_nil _ _) hl]
      rfl

theorem head?_eq_slash_iff (cs : List Char) :
    cs.head? = some '/' ↔ ∃ part rest, parts cs = [] :: part :: rest := by
  cases cs with
  | nil => simp [parts]
  | cons c cs =>
    by_cases hc : c = '/'
    · obtain ⟨part, rest, hparts⟩ := List.exists_cons_of_ne_nil (parts_ne_nil cs)
      rw [hc, parts_slash_cons, hparts]
      simp
    · obtain ⟨part, rest, -, hcons⟩ := parts_cons_of_ne hc cs
      rw [hcons]
      simp [hc]

theorem dropIdle_eq (l : List (List Char)) :
    ∃ idle, l = idle ++ dropIdle l ∧ ∀ part ∈ idle, isIdle part = true := by
  fun_induction dropIdle l with
  | case1 => exact ⟨[], rfl, by simp⟩
  | case2 first => exact ⟨[], rfl, by simp⟩
  | case3 part rest hrest hidle ih =>
    obtain ⟨idle, hsplit, hidles⟩ := ih
    exact ⟨part :: idle, by rw [List.cons_append, ← hsplit],
      List.forall_mem_cons.mpr ⟨hidle, hidles⟩⟩
  | case4 part rest hrest hcounts => exact ⟨[], rfl, by simp⟩

theorem mem_of_mem_dropIdle {l : List (List Char)} {part : List Char} (h : part ∈ dropIdle l) :
    part ∈ l := by
  obtain ⟨idle, hsplit, -⟩ := dropIdle_eq l
  rw [hsplit]
  exact List.mem_append_right idle h

theorem dropIdle_ne_nil {l : List (List Char)} (h : l ≠ []) : dropIdle l ≠ [] := by
  fun_induction dropIdle l with
  | case1 => exact absurd rfl h
  | case2 first => simp
  | case3 part rest hrest hidle ih =>
    refine ih ?_
    rintro rfl
    exact hrest rfl
  | case4 part rest hrest hcounts => simp

theorem isIdle_of_dropIdle {l : List (List Char)} {last part : List Char}
    {rest : List (List Char)} (h : dropIdle l = last :: part :: rest) : isIdle last = false := by
  fun_induction dropIdle l with
  | case1 => cases h
  | case2 first => cases h
  | case3 part rest hrest hidle ih => exact ih h
  | case4 first rest hrest hcounts =>
    obtain ⟨rfl, -⟩ := List.cons.inj h
    simpa using hcounts

theorem toList_join_root (name : String) : (join "/" name).toList = '/' :: name.toList := by
  have joined : join "/" name = "/" ++ name := rfl
  rw [joined, String.toList_append]
  rfl

theorem toList_join {directory : String} (hne : directory ≠ "")
    (hslash : directory.toList.getLast? ≠ some '/') (name : String) :
    (join directory name).toList = directory.toList ++ '/' :: name.toList := by
  unfold join
  rw [if_neg (by simpa using hne), if_neg (by simpa using hslash), String.toList_append,
    String.toList_append, List.append_assoc]
  rfl

theorem parts_join_parent {path name : String} {last : List Char} {rest : List (List Char)}
    (h : dropIdle (parts path.toList).reverse = last :: rest) (hname : '/' ∉ name.toList) :
    parts (join (parent path) name).toList = (dropIdle rest).reverse ++ [name.toList] := by
  cases rest with
  | nil =>
    have directory : parent path = "" := by
      unfold parent
      rw [h]
    rw [directory]
    exact parts_of_not_mem hname
  | cons part rest =>
    have noSlash : ∀ other ∈ (dropIdle (part :: rest)).reverse, '/' ∉ other := by
      intro other hother
      have inner := mem_of_mem_dropIdle (List.mem_reverse.mp hother)
      have outer := mem_of_mem_dropIdle (h ▸ List.mem_cons_of_mem last inner)
      exact slash_not_mem_parts _ other (List.mem_reverse.mp outer)
    have nonnil : (dropIdle (part :: rest)).reverse ≠ [] := by
      simpa using dropIdle_ne_nil (List.cons_ne_nil part rest)
    unfold parent
    rw [h]
    dsimp only
    split
    · rename_i root
      rw [toList_join_root, parts_slash_cons, parts_of_not_mem hname, root]
      rfl
    · rename_i notRoot
      have kept := parts_intercalate nonnil noSlash
      rw [← String.toList_ofList (l := ['/'].intercalate (dropIdle (part :: rest)).reverse)] at kept
      generalize String.ofList (['/'].intercalate (dropIdle (part :: rest)).reverse) = directory
        at kept ⊢
      have nonempty : directory ≠ "" := by
        rintro rfl
        refine notRoot ?_
        rw [← List.reverse_reverse (dropIdle (part :: rest)), ← kept]
        rfl
      have closed : directory.toList.getLast? ≠ some '/' := by
        intro hlast
        obtain ⟨front, hfront⟩ := List.getLast?_eq_some_iff.mp hlast
        rw [hfront, parts_append_slash] at kept
        obtain ⟨first, more, hmore⟩ := List.exists_cons_of_ne_nil
          (List.reverse_ne_nil_iff.mpr (parts_ne_nil front))
        have split : dropIdle (part :: rest) = [] :: first :: more := by
          rw [← List.reverse_reverse (dropIdle (part :: rest)), ← kept, List.reverse_append, hmore]
          rfl
        exact absurd (isIdle_of_dropIdle split) (by decide)
      rw [toList_join nonempty closed, parts_append_slash, kept, parts_of_not_mem hname]

end Path

namespace Location

/-- The place that a path leads to, whether or not anything is there. -/
def ofPath (path : String) : Location := (route path).2.foldl enter (route path).1

def walk (here : Location) (parts : List (List Char)) : Location :=
  parts.foldl (fun here part => here.enter (String.ofList part)) here

def startOf (cs : List Char) : Location := if cs.head? = some '/' then ["/"] else []

theorem route_cases (path : String) :
    (∃ rest, path.toList = '/' :: rest ∧ startOf path.toList = ["/"] ∧
      route path = (["/"], (Path.parts rest).map String.ofList)) ∨
    startOf path.toList = [] ∧ route path = ([], (Path.parts path.toList).map String.ofList) := by
  unfold route
  split
  · rename_i rest hpath
    exact .inl ⟨rest, hpath, by rw [hpath]; rfl, rfl⟩
  · rename_i hslash
    refine .inr ⟨if_neg fun hhead => ?_, rfl⟩
    obtain ⟨rest, hrest⟩ := List.head?_eq_some_iff.mp hhead
    exact hslash rest hrest

theorem startOf_eq (cs : List Char) : startOf cs =
    if (Path.parts cs).head? = some [] ∧ 2 ≤ (Path.parts cs).length then ["/"] else [] := by
  unfold startOf
  refine if_congr ?_ rfl rfl
  rw [Path.head?_eq_slash_iff]
  constructor
  · rintro ⟨part, rest, hparts⟩
    simp [hparts]
  · rintro ⟨hhead, hlength⟩
    obtain ⟨rest, hparts⟩ := List.head?_eq_some_iff.mp hhead
    rw [hparts, List.length_cons] at hlength
    obtain ⟨part, rest, rfl⟩ := List.exists_cons_of_length_pos (by omega : 0 < rest.length)
    exact ⟨part, rest, hparts⟩

theorem enter_of_isIdle {part : List Char} (h : Path.isIdle part = true) (here : Location) :
    here.enter (String.ofList part) = here := by
  unfold Path.isIdle at h
  rw [Bool.or_eq_true, beq_iff_eq, beq_iff_eq] at h
  obtain rfl | rfl := h <;> rfl

theorem walk_append (here : Location) (parts more : List (List Char)) :
    here.walk (parts ++ more) = (here.walk parts).walk more :=
  List.foldl_append

theorem walk_of_isIdle {parts : List (List Char)} (h : ∀ part ∈ parts, Path.isIdle part = true)
    (here : Location) : here.walk parts = here := by
  induction parts generalizing here with
  | nil => rfl
  | cons part parts ih =>
    obtain ⟨hpart, hparts⟩ := List.forall_mem_cons.mp h
    unfold walk
    rw [List.foldl_cons, enter_of_isIdle hpart]
    exact ih hparts here

theorem ofPath_eq_walk (path : String) :
    ofPath path = (startOf path.toList).walk (Path.parts path.toList) := by
  unfold ofPath walk
  obtain ⟨rest, hpath, start, route⟩ | ⟨start, route⟩ := route_cases path
  · rw [start, route, hpath, Path.parts_slash_cons, List.foldl_map]
    rfl
  · rw [start, route, List.foldl_map]

theorem getLast?_route {path : String} {last : List Char}
    (h : (Path.parts path.toList).getLast? = some last) :
    (route path).2.getLast? = some (String.ofList last) := by
  obtain ⟨rest, hpath, -, route⟩ | ⟨-, route⟩ := route_cases path
  · obtain ⟨part, parts, hparts⟩ := List.exists_cons_of_ne_nil (Path.parts_ne_nil rest)
    rw [hpath, Path.parts_slash_cons, hparts, List.getLast?_cons_cons] at h
    rw [route, hparts, List.getLast?_map, h]
    rfl
  · rw [route, List.getLast?_map, h]
    rfl

theorem enter_name {name : String} (hidle : Path.isIdle name.toList = false)
    (hup : name ≠ "..") (here : Location) : here.enter name = here ++ [name] := by
  unfold Path.isIdle at hidle
  rw [Bool.or_eq_false_iff, beq_eq_false_iff_ne, beq_eq_false_iff_ne] at hidle
  have counts : (name == "" || name == ".") = false := by
    rw [Bool.or_eq_false_iff, beq_eq_false_iff_ne, beq_eq_false_iff_ne]
    refine ⟨fun h => hidle.1 (h ▸ rfl), fun h => hidle.2 (h ▸ rfl)⟩
  unfold enter
  rw [if_neg (by simp [counts]), if_pos (by simpa using hup)]

theorem enter_up (here : Location) :
    here.enter ".." = here ++ [".."] ∨ (here.enter "..").length ≤ here.length := by
  unfold enter
  rw [if_neg (by decide), if_neg (by decide)]
  split
  · rename_i hlast
    rw [List.getLast?_eq_none_iff.mp hlast]
    exact .inl rfl
  · split
    · exact .inl rfl
    · split
      · exact .inr (Nat.le_refl _)
      · exact .inr (by simp)

end Location

namespace FileSystem

variable {fs fs' : FileSystem} {path : String} {content : ByteArray}

theorem follow_cons_eq_ok_iff {here location : Location} {part : String} {parts : List String} :
    fs.follow here (part :: parts) = .ok location ↔
      fs.isDirectory here = true ∧ fs.follow (here.enter part) parts = .ok location := by
  rw [follow]
  split
  · rename_i hdir
    rw [and_iff_right hdir]
  · rename_i hdir
    refine iff_of_false ?_ fun h => hdir h.1
    split <;> simp

theorem foldl_of_follow {here location : Location} {parts : List String}
    (h : fs.follow here parts = .ok location) : location = parts.foldl Location.enter here := by
  induction parts generalizing here with
  | nil => exact (Except.ok.inj h).symm
  | cons part parts ih => exact ih (follow_cons_eq_ok_iff.mp h).2

theorem follow_neighbour {here location : Location} {front : List String} {part : String}
    {parts : List String} (h : fs.follow here (front ++ part :: parts) = .ok location)
    (name : String) :
    fs.follow here (front ++ [name]) = .ok ((front.foldl Location.enter here).enter name) := by
  induction front generalizing here with
  | nil => exact follow_cons_eq_ok_iff.mpr ⟨(follow_cons_eq_ok_iff.mp h).1, rfl⟩
  | cons first front ih =>
    obtain ⟨hdir, hrest⟩ := follow_cons_eq_ok_iff.mp h
    exact follow_cons_eq_ok_iff.mpr ⟨hdir, ih hrest⟩

theorem follow_route (fs : FileSystem) (path : String) :
    fs.follow (Location.route path).1 (Location.route path).2 =
      fs.follow (Location.startOf path.toList) ((Path.parts path.toList).map String.ofList) := by
  obtain ⟨rest, hpath, start, route⟩ | ⟨start, route⟩ := Location.route_cases path
  · obtain ⟨part, parts, hparts⟩ := List.exists_cons_of_ne_nil (Path.parts_ne_nil rest)
    have entered : Location.enter ["/"] (String.ofList []) = ["/"] := rfl
    rw [start, route, hpath, Path.parts_slash_cons, hparts, List.map_cons, List.map_cons]
    conv_rhs => rw [follow, entered]
    split
    · rfl
    · rename_i hdir
      rw [follow, if_neg hdir]
  · rw [start, route]

theorem follow_congr (h : fs'.directories = fs.directories) {here location : Location}
    {parts : List String} (hfollow : fs.follow here parts = .ok location) :
    fs'.follow here parts = .ok location := by
  induction parts generalizing here with
  | nil => exact hfollow
  | cons part parts ih =>
    obtain ⟨hdir, hrest⟩ := follow_cons_eq_ok_iff.mp hfollow
    unfold isDirectory at hdir
    rw [← h] at hdir
    exact follow_cons_eq_ok_iff.mpr ⟨hdir, ih hrest⟩

theorem read_eq_ok_iff : fs.read path = .ok content ↔
    path ≠ "" ∧
      fs.follow (Location.route path).1 (Location.route path).2 = .ok (Location.ofPath path) ∧
      fs.content? (Location.ofPath path) = some content := by
  by_cases hempty : path = ""
  · rw [hempty]
    exact iff_of_false nofun (·.1 rfl)
  · unfold read
    rw [if_neg (by simpa using hempty), and_iff_right hempty]
    constructor
    · intro h
      obtain ⟨location, hlocation, h⟩ := bind_eq_ok_iff.mp h
      obtain rfl : location = Location.ofPath path := foldl_of_follow hlocation
      refine ⟨hlocation, ?_⟩
      split at h
      · rename_i found hfound
        rw [hfound, Except.ok.inj h]
      · cases h
    · rintro ⟨hlocation, hcontent⟩
      refine bind_eq_ok_iff.mpr ⟨_, hlocation, ?_⟩
      rw [hcontent]
      rfl

theorem write_eq {last : List Char} (hlast : (Path.parts path.toList).getLast? = some last)
    (hne : last ≠ []) {location : Location}
    (h : fs.follow (Location.route path).1 (Location.route path).2 = .ok location) :
    fs.write path content = if fs.isDirectory location then .error .isDirectory
      else .ok (fs.put location content) := by
  have nonempty : ¬(path == "") = true := by
    intro hempty
    rw [eq_of_beq hempty] at hlast
    exact hne (Option.some.inj hlast).symm
  have whole : ((Location.route path).2.reverse.dropWhile (· == "")).reverse =
      (Location.route path).2 := by
    obtain ⟨before, hroute⟩ := List.getLast?_eq_some_iff.mp (Location.getLast?_route hlast)
    have counts : (String.ofList last == "") = false := by simpa using hne
    rw [hroute, List.reverse_append, List.reverse_singleton, List.singleton_append,
      List.dropWhile_cons_of_neg (by simp [counts]), List.reverse_cons, List.reverse_reverse]
  have unfolded : fs.write path content =
      (fs.follow (Location.route path).1
          ((Location.route path).2.reverse.dropWhile (· == "")).reverse >>= fun location =>
        if ((Location.route path).2.reverse.dropWhile (· == "")).reverse !=
            (Location.route path).2 || fs.isDirectory location then .error .isDirectory
        else .ok (fs.put location content)) := by
    unfold write
    rw [if_neg nonempty]
    rfl
  rw [unfolded, whole, h]
  simp [bind, Except.bind]

theorem lookup_filter_of_ne {location other : Location} (h : other ≠ location)
    (files : List (Location × ByteArray)) :
    (files.filter (·.1 != location)).lookup other = files.lookup other := by
  induction files with
  | nil => rfl
  | cons file files ih =>
    by_cases hfile : file.1 = location
    · have elsewhere : (other == file.1) = false := by simpa [hfile] using h
      rw [List.filter_cons_of_neg (by simp [hfile]), List.lookup_cons, elsewhere]
      exact ih
    · rw [List.filter_cons_of_pos (by simpa using hfile), List.lookup_cons, List.lookup_cons, ih]

theorem content?_put (fs : FileSystem) (location : Location) (content : ByteArray)
    (other : Location) : (fs.put location content).content? other =
      if other = location then some content else fs.content? other := by
  unfold put content?
  dsimp only
  rw [List.lookup_cons]
  split
  · rename_i hsame
    rw [if_pos (eq_of_beq hsame)]
  · rename_i hother
    have elsewhere : other ≠ location := by simpa using hother
    rw [if_neg elsewhere, lookup_filter_of_ne elsewhere]

/-- The second of two trees of files is the first with another content at one place. -/
structure Replaces (fs fs' : FileSystem) (location : Location) (content : ByteArray) : Prop where
  directories : fs'.directories = fs.directories
  content? : ∀ other,
    fs'.content? other = if other = location then some content else fs.content? other

theorem replaces_put (fs : FileSystem) (location : Location) (content : ByteArray) :
    fs.Replaces (fs.put location content) location content :=
  ⟨rfl, content?_put fs location content⟩

theorem Replaces.read {location : Location} {written : ByteArray}
    (h : fs.Replaces fs' location written) (hread : fs.read path = .ok content) :
    fs'.read path = .ok (if Location.ofPath path = location then written else content) := by
  obtain ⟨hpath, hfollow, hcontent⟩ := read_eq_ok_iff.mp hread
  refine read_eq_ok_iff.mpr ⟨hpath, follow_congr h.directories hfollow, ?_⟩
  rw [h.content?]
  split
  · rfl
  · exact hcontent

end FileSystem

end BusMachine
