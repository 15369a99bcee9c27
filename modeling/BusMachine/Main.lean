import BusMachine.CommandLine.Execute

/-!
The program. It fetches what a command needs, has the command carried out and hands over what the
command left behind.
-/

namespace BusMachine.CommandLine

partial def readToEnd (stream : IO.FS.Stream) (before : ByteArray) : IO ByteArray := do
  let bytes ← stream.read 65536
  if bytes.isEmpty then return before else readToEnd stream (before ++ bytes)

/-- The part of the tree of files that a command has to do with. An input that cannot be read counts
as absent, and the directory of the output as there until writing to it fails. -/
def visibleFiles (command : Command) : IO FileSystem := do
  let mut files : FileSystem := {}
  if let some path := command.inputPath? then
    if let .ok content ← (IO.FS.readBinFile path).toBaseIO then
      files := files.addFile path content
  if let some path := command.outputPath? then
    files := files.addDirectory (Path.parent path)
  return files

def faultOf : IO.Error → FileFault
  | .noFileOrDirectory .. => .notFound
  | .inappropriateType _ code _ => if code = 20 then .notDirectory else .isDirectory
  | error => .refused error.toString

def store (changes : List (String × ByteArray)) : IO Unit :=
  changes.forM fun (path, content) => IO.FS.writeBinFile path content

def report (outcome : Outcome) : IO UInt32 := do
  let stdout ← IO.getStdout
  stdout.write outcome.stdout
  stdout.flush
  IO.eprint outcome.stderr
  return outcome.exitCode.toUInt32

end BusMachine.CommandLine

open BusMachine CommandLine

def main (arguments : List String) : IO UInt32 := do
  match Request.parse arguments with
  | .ok (.command command) =>
    let files ← visibleFiles command
    let stdin ← if command.readsStdin then readToEnd (← IO.getStdin) .empty else pure .empty
    let outcome := execute arguments files stdin
    match ← (store (outcome.files.changesFrom files)).toBaseIO with
    | .ok _ => report outcome
    | .error error => report (.unwritten files (faultOf error))
  | _ => report (execute arguments {} .empty)
