/-!
Names of files. A path is a text whose parts are separated by slashes; empty parts and single dots
do not count, except that a dot or a slash at the very front is kept.
-/

namespace BusMachine.Path

def parts (path : List Char) : List (List Char) :=
  path.foldr (fun c parts =>
    if c = '/' then [] :: parts
    else match parts with
      | part :: rest => (c :: part) :: rest
      | [] => [[c]]) [[]]

/-- A part that leads nowhere. -/
def isIdle (part : List Char) : Bool := part == [] || part == ['.']

/-- The parts in reverse, from the last one that counts on. The very first part always counts if it
is a dot, and stands for the root if it is empty. -/
def dropIdle : List (List Char) → List (List Char)
  | [] => []
  | [first] => [first]
  | part :: rest => if isIdle part then dropIdle rest else part :: rest

def fileName? (path : String) : Option String :=
  match dropIdle (parts path.toList).reverse with
  | [] => none
  | last :: _ =>
    if isIdle last || last == ['.', '.'] then none else some (String.ofList last)

/-- A file name cut at its last dot. A dot at the front does not count. -/
def splitName (name : String) : String × Option String :=
  let reversed := name.toList.reverse
  match reversed.dropWhile (· != '.') with
  | _ :: stem@(_ :: _) =>
    (String.ofList stem.reverse, some (String.ofList (reversed.takeWhile (· != '.')).reverse))
  | _ => (name, none)

def fileStem? (path : String) : Option String := (fileName? path).map fun name => (splitName name).1

def extension? (path : String) : Option String :=
  (fileName? path).bind fun name => (splitName name).2

/-- The path without the part that `fileName?` is about. -/
def parent (path : String) : String :=
  match dropIdle (parts path.toList).reverse with
  | [] | [_] => ""
  | _ :: rest =>
    match dropIdle rest with
    | [[]] => "/"
    | kept => String.ofList (['/'].intercalate kept.reverse)

def join (directory name : String) : String :=
  if directory == "" then name
  else if directory.toList.getLast? == some '/' then directory ++ name
  else directory ++ "/" ++ name

end BusMachine.Path
