import BusMachine.Assembly.Image
import BusMachine.CommandLine.Options
import BusMachine.Device.ByteStream
import BusMachine.FileSystem
import BusMachine.InlineTest.Run
import BusMachine.Listing

/-!
What the commands do, on a tree of files and with a given standard input.
-/

namespace BusMachine.CommandLine

structure Outcome where
  exitCode : Nat := 0
  stdout : ByteArray := .empty
  stderr : String := ""
  files : FileSystem

namespace Outcome

def printed (files : FileSystem) (text : String) : Outcome := { files, stdout := text.toUTF8 }

def failed (files : FileSystem) (exitCode : Nat) (complaint : String) : Outcome :=
  { files, exitCode, stderr := complaint ++ "\n" }

def unwritten (files : FileSystem) (fault : FileFault) : Outcome :=
  failed files 1 s!"error: failed to write output: {fault.message}"

end Outcome

inductive Refusal where
  | machine (fault : BuildFault)
  | unreadable (path : String) (fault : FileFault)
  | assembly (path : String) (fault : Assembly.Fault)
  | assertion (path : String) (block : TestSection) (fault : InlineTest.AssertionFault)

namespace Refusal

def exitCode : Refusal → Nat
  | machine _ => 2
  | _ => 1

def message : Refusal → String
  | machine fault => s!"error: {fault.message}"
  | unreadable path fault => s!"error: failed to read {path}: {fault.message}"
  | assembly path fault => fault.diagnostic path
  | assertion path block fault =>
    s!"{path}:{block.startLine}: error: invalid test block: {fault.message}"

end Refusal

/-- The standard machine, with a word size of its own and as many memory cells if one is given. -/
def standardMachine (wordSize : Option Nat) : Except Refusal Architecture :=
  let params : Parameters := match wordSize with
    | none => {}
    | some n => { wordSize := n, memorySize := n }
  (Architecture.standard params).mapError .machine

def openSource (files : FileSystem) (path : String) : Except Refusal Source :=
  match files.readText path with
  | .ok content => .ok (.ofFile path content)
  | .error fault => .error (.unreadable path fault)

/-- Where the image of an input goes unless told otherwise: beside it, with the extensions replaced
by `.bin`. -/
def imagePath (input : String) : String :=
  let stem := (Path.fileStem? input).getD "out"
  let stem := match stem.toList.reverse with
    | '8' :: 'b' :: '.' :: rest => String.ofList rest.reverse
    | _ => stem
  Path.join (Path.parent input) (stem ++ ".bin")

def Options.outputPath (options : Options) : String :=
  options.output.getD (imagePath options.input)

/-- The bytes of an image: one byte a word where words are bytes, and two bytes a word, the low one
first, where they are not. -/
def encodeWords (wordSize : Nat) (words : Array Word) : ByteArray :=
  if wordSize ≤ 256 then words.foldl (fun bytes w => bytes.push (UInt8.ofNat w)) .empty
  else
    words.foldl (fun bytes w => (bytes.push (UInt8.ofNat w)).push (UInt8.ofNat (w / 256))) .empty

def linesText (lines : List String) : String := String.join (lines.map (· ++ "\n"))

def build (options : Options) (files : FileSystem) : Except Refusal Outcome := do
  let arch ← standardMachine options.wordSize
  let source ← openSource files options.input
  let dialect := Assembly.Dialect.ofArchitecture arch options.strict
  let image ← (Assembly.Image.ofSource dialect arch.memorySize source.program).mapError
    (.assembly source.path)
  let output := options.outputPath
  let bytes := encodeWords arch.wordSize image.words
  match files.write output bytes with
  | .error fault => return .unwritten files fault
  | .ok files =>
    let listing : Listing :=
      { instructions := arch.instructions, annotations := some image.annotations }
    let stderr :=
      if options.verbose then linesText ((listing.rows image.words.toList).map ListingRow.text)
      else ""
    let counts := s!"({image.words.size} words, {bytes.size} bytes)"
    let stdout := s!"Assembled {options.input} {counts} -> {output}\n"
    return { files, stdout := stdout.toUTF8, stderr }

def readTests (source : Source) : Except Refusal (List InlineTest.Block) :=
  source.tests.mapM fun block =>
    (InlineTest.Block.parse block).mapError (.assertion source.path block)

def reportLines (report : InlineTest.Report) : List String :=
  let blocks := report.results.flatMap fun result =>
    result.text ::
      if result.passed then [] else result.failures.map fun verdict => "  " ++ verdict.text
  blocks ++ ["", s!"Test Summary: {report.summary} (total: {report.total})"]

/-- Assembles the input and runs its test blocks, with no device bound to any port. -/
def test (options : Options) (files : FileSystem) : Except Refusal Outcome := do
  let arch ← standardMachine options.wordSize
  let source ← openSource files options.input
  let machine : Machine arch ByteStreamDevice := .new arch
  let (annotations, machine) ← (Assembly.loadSource machine source.program options.strict).mapError
    (.assembly source.path)
  if source.tests.isEmpty then
    return .printed files s!"No test blocks found in {options.input}\n"
  let blocks ← readTests source
  let (report, _) := InlineTest.run annotations options.maxTicks blocks machine
  return { Outcome.printed files (linesText (reportLines report)) with
           exitCode := if report.allPassed then 0 else 1 }

/-- The port on which a program reads standard input and writes standard output. -/
def streamPort : Word := 0

def runLoaded {arch : Architecture} (options : Options) (files : FileSystem) (stdin : ByteArray)
    (machine : Machine arch ByteStreamDevice) : Outcome :=
  let stream : ByteStreamDevice := { input := stdin.toList }
  let ports := machine.datapath.ports.insert streamPort stream
  let (outcome, machine) := { machine with datapath.ports := ports }.runToHalt options.maxTicks
  let stdout := ((machine.datapath.ports.get? streamPort).getD stream).output
  match outcome with
  | .halted _ => { files, stdout }
  | .budgetExhausted =>
    { Outcome.failed files 1 s!"error: no hlt within {options.maxTicks} ticks" with stdout }

def run (options : Options) (files : FileSystem) (stdin : ByteArray) : Except Refusal Outcome := do
  let arch ← standardMachine options.wordSize
  let source ← openSource files options.input
  let machine : Machine arch ByteStreamDevice := .new arch
  let (_, machine) ← (Assembly.loadSource machine source.program options.strict).mapError
    (.assembly source.path)
  return runLoaded options files stdin machine

def isa (files : FileSystem) : Except Refusal Outcome := do
  let arch ← standardMachine none
  let line (i : Instruction) : String :=
    let operands := " ".intercalate (i.operands.map OperandKind.text)
    Text.padStart 3 ' ' (toString i.opcode) ++ "  " ++ Text.padEnd 6 ' ' i.name ++ " " ++
      Text.padEnd 18 ' ' operands ++ " " ++ i.summary
  return .printed files (linesText (arch.instructions.toList.map line))

def Command.inputPath? : Command → Option String
  | .build options | .test options | .run options => some options.input
  | .isa => none

def Command.outputPath? : Command → Option String
  | .build options => some options.outputPath
  | _ => none

def Command.readsStdin : Command → Bool
  | .run _ => true
  | _ => false

def Command.execute (command : Command) (files : FileSystem) (stdin : ByteArray) :
    Except Refusal Outcome :=
  match command with
  | .build options => CommandLine.build options files
  | .test options => CommandLine.test options files
  | .run options => CommandLine.run options files stdin
  | .isa => CommandLine.isa files

def execute (arguments : List String) (files : FileSystem) (stdin : ByteArray) : Outcome :=
  match Request.parse arguments with
  | .ok .help => .printed files (usage ++ "\n")
  | .error .helpInstead => { Outcome.printed files (usage ++ "\n") with exitCode := 1 }
  | .error fault => .failed files 1 s!"error: {fault.message}\n{usage}"
  | .ok (.command command) =>
    match command.execute files stdin with
    | .ok outcome => outcome
    | .error refusal => .failed files refusal.exitCode refusal.message

end BusMachine.CommandLine
