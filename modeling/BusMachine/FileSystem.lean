import BusMachine.Path

/-!
A tree of files: which contents are where, and how a path is followed through directories.
-/

namespace BusMachine

inductive FileFault where
  | notFound
  | notDirectory
  | isDirectory
  | notText
  | refused (reason : String)
deriving DecidableEq, Repr

def FileFault.message : FileFault → String
  | notFound => "No such file or directory (os error 2)"
  | notDirectory => "Not a directory (os error 20)"
  | isDirectory => "Is a directory (os error 21)"
  | notText => "stream did not contain valid UTF-8"
  | refused reason => reason

/-- A place in the tree: the names on the way to it. That of an absolute path begins with a slash;
any other starts in the current directory. -/
abbrev Location := List String

namespace Location

def enter (here : Location) (part : String) : Location :=
  if part == "" || part == "." then here
  else if part != ".." then here ++ [part]
  else match here.getLast? with
    | none => [".."]
    | some name =>
      if name == ".." then here ++ [".."] else if name == "/" then here else here.dropLast

/-- Where a path starts, and its parts. -/
def route (path : String) : Location × List String :=
  match path.toList with
  | '/' :: rest => (["/"], (Path.parts rest).map String.ofList)
  | cs => ([], (Path.parts cs).map String.ofList)

def path : Location → String
  | "/" :: names => "/" ++ "/".intercalate names
  | names => "/".intercalate names

end Location

structure FileSystem where
  files : List (Location × ByteArray) := []
  /-- The directories besides the current one. -/
  directories : List Location := []

namespace FileSystem

def content? (fs : FileSystem) (location : Location) : Option ByteArray := fs.files.lookup location

def isDirectory (fs : FileSystem) (location : Location) : Bool :=
  location.isEmpty || fs.directories.contains location

/-- Follows the parts of a path from `here` on. All but the last must lead to directories. -/
def follow (fs : FileSystem) (here : Location) : List String → Except FileFault Location
  | [] => .ok here
  | part :: rest =>
    if fs.isDirectory here then follow fs (here.enter part) rest
    else if (fs.content? here).isSome then .error .notDirectory
    else .error .notFound

def read (fs : FileSystem) (path : String) : Except FileFault ByteArray := do
  if path == "" then throw .notFound
  let (start, parts) := Location.route path
  let location ← fs.follow start parts
  match fs.content? location with
  | some content => return content
  | none => throw (if fs.isDirectory location then .isDirectory else .notFound)

def readText (fs : FileSystem) (path : String) : Except FileFault String := do
  match String.fromUTF8? (← fs.read path) with
  | some text => return text
  | none => throw .notText

def put (fs : FileSystem) (location : Location) (content : ByteArray) : FileSystem :=
  { fs with files := (location, content) :: fs.files.filter (·.1 != location) }

/-- Writes a file into a directory that is there. A path that ends in a slash leads to no file. -/
def write (fs : FileSystem) (path : String) (content : ByteArray) :
    Except FileFault FileSystem := do
  if path == "" then throw .notFound
  let (start, parts) := Location.route path
  let named := (parts.reverse.dropWhile (· == "")).reverse
  let location ← fs.follow start named
  if named != parts || fs.isDirectory location then throw .isDirectory
  return fs.put location content

/-- Makes directories of the first `count` places that a path leads through. -/
def addDirectories (fs : FileSystem) (path : String) (count : Nat) : FileSystem :=
  let (start, parts) := Location.route path
  let places := (List.range count).map fun k => (parts.take k).foldl Location.enter start
  { fs with directories := places ++ fs.directories }

def addDirectory (fs : FileSystem) (path : String) : FileSystem :=
  fs.addDirectories path ((Location.route path).2.length + 1)

def addFile (fs : FileSystem) (path : String) (content : ByteArray) : FileSystem :=
  let (start, parts) := Location.route path
  (fs.addDirectories path parts.length).put (parts.foldl Location.enter start) content

def ofFiles (files : List (String × ByteArray)) : FileSystem :=
  files.foldl (fun fs (path, content) => fs.addFile path content) {}

def changesFrom (fs old : FileSystem) : List (String × ByteArray) :=
  let changed := fs.files.filter fun (location, content) =>
    match old.content? location with
    | some before => before.data != content.data
    | none => true
  changed.map fun (location, content) => (location.path, content)

end FileSystem

end BusMachine
