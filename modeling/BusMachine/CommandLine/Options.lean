import BusMachine.Text.Numeral

/-!
The command line: which command is asked for and with which options.
-/

namespace BusMachine.CommandLine

def usage : String :=
  let lines :=
    ["Usage: bus8-asm <command> [options]",
      "",
      "Commands:",
      "  build <input> [-o <output>] [--verbose]  Assemble source to a memory image",
      "  test  <input>                            Assemble and run inline tests",
      "  run   <input>                            Assemble and run until hlt",
      "  isa                                      Print the instruction table",
      "",
      "Options:",
      "  -o, --output <file>    Output file path (default: input stem + .bin)",
      "  -v, --verbose          Print a listing to stderr (build only)",
      "      --word-size <n>    Word modulus W (default 256)",
      "      --max-ticks <n>    Tick budget per run or test block (default 100000)",
      "      --strict           Reject unknown tokens instead of dropping them",
      "  -h, --help             Show this help message",
      "",
      "Examples:",
      "  bus8-asm build hello.b8",
      "  bus8-asm test counter.md",
      "  RUST_LOG=debug bus8-asm run echo.b8 --max-ticks 5000"]
  String.join (lines.map (· ++ "\n"))

def defaultMaxTicks : Nat := 100000

structure Options where
  input : String
  output : Option String := none
  verbose : Bool := false
  wordSize : Option Nat := none
  maxTicks : Nat := defaultMaxTicks
  strict : Bool := false
deriving DecidableEq, Repr

inductive Command where
  | build (options : Options)
  | test (options : Options)
  | run (options : Options)
  | isa
deriving DecidableEq, Repr

inductive UsageFault where
  | helpInstead
  | missingCommand
  | unknownCommand (name : String)
  | unexpectedArgument (argument : String)
  | missingValue (option : String)
  | invalidValue (option value : String)
  | unknownOption (option : String)
  | multipleInputs
  | missingInput
deriving DecidableEq, Repr

def UsageFault.message : UsageFault → String
  | helpInstead => usage
  | missingCommand => "missing command"
  | unknownCommand name => s!"unknown command: {name}"
  | unexpectedArgument argument => s!"unexpected argument: {argument}"
  | missingValue option => s!"missing value for {option}"
  | invalidValue option value => s!"invalid value for {option}: {value}"
  | unknownOption option => s!"unknown option: {option}"
  | multipleInputs => "multiple input paths provided"
  | missingInput => "missing input path"

inductive Request where
  | help
  | command (command : Command)
deriving DecidableEq, Repr

def isHelp (argument : String) : Bool := argument == "--help" || argument == "-h"

structure PartialOptions where
  input : Option String := none
  output : Option String := none
  verbose : Bool := false
  wordSize : Option Nat := none
  maxTicks : Nat := defaultMaxTicks
  strict : Bool := false
deriving DecidableEq, Repr

def number (option : String) (limit : Nat) (value : String) : Except UsageFault Nat :=
  match Text.natural? limit value.toList with
  | some n => .ok n
  | none => .error (.invalidValue option value)

def wordSizeLimit : Nat := 0xffff_ffff

def maxTicksLimit : Nat := 0xffff_ffff_ffff_ffff

/-- Collects options and the input. Only `build` has an output and a listing. -/
def PartialOptions.collect (building : Bool) (p : PartialOptions) :
    List String → Except UsageFault PartialOptions
  | [] => .ok p
  | argument :: rest =>
    if isHelp argument then .error .helpInstead
    else if building && (argument == "--verbose" || argument == "-v") then
      collect building { p with verbose := true } rest
    else if building && (argument == "-o" || argument == "--output") then
      match rest with
      | [] => .error (.missingValue "-o")
      | value :: rest => collect building { p with output := some value } rest
    else if argument == "--word-size" then
      match rest with
      | [] => .error (.missingValue "--word-size")
      | value :: rest => do
        let n ← number "--word-size" wordSizeLimit value
        collect building { p with wordSize := some n } rest
    else if argument == "--max-ticks" then
      match rest with
      | [] => .error (.missingValue "--max-ticks")
      | value :: rest => do
        let n ← number "--max-ticks" maxTicksLimit value
        collect building { p with maxTicks := n } rest
    else if argument == "--strict" then collect building { p with strict := true } rest
    else if argument.toList.head? == some '-' then .error (.unknownOption argument)
    else if p.input.isSome then .error .multipleInputs
    else collect building { p with input := some argument } rest

def Options.parse (building : Bool) (arguments : List String) : Except UsageFault Options := do
  let p ← PartialOptions.collect building {} arguments
  match p.input with
  | none => throw .missingInput
  | some input =>
    return { input, output := p.output, verbose := p.verbose, wordSize := p.wordSize,
             maxTicks := p.maxTicks, strict := p.strict }

def Request.parse : List String → Except UsageFault Request
  | [] => .error .missingCommand
  | name :: rest =>
    if isHelp name then .ok .help
    else if name == "build" then return .command (.build (← Options.parse true rest))
    else if name == "test" then return .command (.test (← Options.parse false rest))
    else if name == "run" then return .command (.run (← Options.parse false rest))
    else if name == "isa" then
      match rest with
      | [] => .ok (.command .isa)
      | argument :: _ =>
        if isHelp argument then .error .helpInstead else .error (.unexpectedArgument argument)
    else .error (.unknownCommand name)

end BusMachine.CommandLine
