import Inliner.CommandLine.Suggestion
import Inliner.Manifest
import Inliner.Settings.Load

/-! The command line: options and two operands in any order. Options are handled from left to right,
and one that is invalid or asks for the version ends the run where it stands. -/
namespace Inliner.CommandLine

inductive Flag where
  | version | debug | maxDepth | baseDir | config
  deriving DecidableEq, Repr

namespace Flag

def all : List Flag := [.version, .debug, .maxDepth, .baseDir, .config]

def long : Flag → String
  | .version => "--version"
  | .debug => "--debug"
  | .maxDepth => "--max-depth"
  | .baseDir => "--base-dir"
  | .config => "--config"

def short? : Flag → Option String
  | .version => some "-V"
  | .debug => some "-d"
  | .config => some "-c"
  | _ => none

def takesValue : Flag → Bool
  | .version | .debug => false
  | _ => true

def shown : Flag → String
  | .version => "-V, --version"
  | .debug => "-d, --debug"
  | .maxDepth => "--max-depth <n>"
  | .baseDir => "--base-dir <dir>"
  | .config => "-c, --config <file>"

def find? (arg : String) : Option Flag :=
  all.find? fun f => f.long == arg || f.short? == some arg

end Flag

def helpFlags : List String := ["-h", "--help"]

def helpText : String :=
  "Usage: shpp [options] <input> <output>\n" ++
  "\n" ++
  "Inline #include directives in shell scripts\n" ++
  "\n" ++
  "Arguments:\n" ++
  "  input                input file to process\n" ++
  "  output               output file path\n" ++
  "\n" ++
  "Options:\n" ++
  "  -V, --version        output the version number\n" ++
  "  -d, --debug          add include markers to the output\n" ++
  "  --max-depth <n>      maximum include depth (default: 100)\n" ++
  "  --base-dir <dir>     sandbox root for includes (default: the input file's\n" ++
  "                       directory)\n" ++
  "  -c, --config <file>  YAML config file (default: .shpp.yml beside the input,\n" ++
  "                       if present)\n" ++
  "  -h, --help           display help for command\n"

/-- What ends a run before it starts. -/
inductive Stop where
  | version
  | help
  | invalidDepth (given : String)
  | missingValue (flag : Flag)
  | unknownOption (arg : String)
  | missingOperand (name : String)
  deriving DecidableEq, Repr

structure Ending where
  out : String := ""
  err : String := ""
  exit : Nat
  deriving DecidableEq, Repr, Inhabited

def invalidDepthMessage : String := "Must be a positive integer."

def optionNames : List String :=
  (Flag.all.map fun f => (f.long.drop 2).toString) ++ ["help"]

def Stop.ending : Stop → Ending
  | .version => { out := Manifest.ownVersion ++ "\n", exit := 0 }
  | .help => { out := helpText, exit := 0 }
  | .invalidDepth given =>
    refused ("option '" ++ Flag.maxDepth.shown ++ "' argument '" ++ given ++ "' is invalid. " ++
      invalidDepthMessage)
  | .missingValue flag => refused ("option '" ++ flag.shown ++ "' argument missing")
  | .unknownOption arg =>
    let hint := match arg.toList with
      | '-' :: '-' :: word => suggestion (String.ofList word) optionNames
      | _ => ""
    refused ("unknown option '" ++ arg ++ "'" ++ hint)
  | .missingOperand name => refused ("missing required argument '" ++ name ++ "'")
where
  refused (message : String) : Ending := { err := "error: " ++ message ++ "\n", exit := 1 }

/-- A depth: digits between blanks, not all of them zero. The form is checked on the trimmed text, and
the number is read from the text as it is given. -/
def parseDepth? (s : String) : Option Number :=
  let ds := Text.trimChars s.toList
  if ds.isEmpty || !ds.all Char.isDigit then none
  else
    let depth := Number.leadingInteger s.toList
    if depth.exceededBy 1 then none else some depth

/-- The command line as far as it is read. -/
structure Parsed where
  options : CommandOptions := {}
  operands : List String := []
  /-- From the first argument that looks like an option and is none, all that is no option. -/
  unknown : List String := []
  deriving Repr, Inhabited

namespace Parsed

def setFlag (p : Parsed) (flag : Flag) (value : String) : Except Stop Parsed :=
  match flag with
  | .version => .error .version
  | .debug => .ok { p with options := { p.options with debug := .bool true } }
  | .maxDepth =>
    match parseDepth? value with
    | some n => .ok { p with options := { p.options with maxDepth := .number n } }
    | none => .error (.invalidDepth value)
  | .baseDir => .ok { p with options := { p.options with baseDir := .text value } }
  | .config => .ok { p with options := { p.options with config := .text value } }

def addOthers (p : Parsed) (args : List String) : Parsed :=
  if p.unknown.isEmpty then { p with operands := p.operands ++ args }
  else { p with unknown := p.unknown ++ args }

end Parsed

def looksLikeOption (arg : String) : Bool :=
  match arg.toList with
  | '-' :: _ :: _ => true
  | _ => false

inductive Reading where
  | flag (f : Flag)
  | valued (f : Flag) (value : String)
  | grouped (f : Flag) (rest : String)
  | unknown
  | operand
  deriving DecidableEq, Repr

/-- A group of short flags, of which the first is known. -/
def readGroup? : List Char → Option Reading
  | '-' :: c :: d :: rest =>
    if c = '-' then none
    else
      (Flag.find? (String.ofList ['-', c])).map fun f =>
        if f.takesValue then .valued f (String.ofList (d :: rest))
        else .grouped f (String.ofList ('-' :: d :: rest))
  | _ => none

def readAssignment? (cs : List Char) : Option Reading :=
  let name := cs.takeWhile (· != '=')
  match cs.dropWhile (· != '=') with
  | '=' :: value =>
    match name with
    | '-' :: '-' :: _ :: _ =>
      ((Flag.find? (String.ofList name)).filter Flag.takesValue).map fun f =>
        .valued f (String.ofList value)
    | _ => none
  | _ => none

def readArgument (arg : String) : Reading :=
  if looksLikeOption arg then
    match Flag.find? arg with
    | some f => .flag f
    | none => (readGroup? arg.toList <|> readAssignment? arg.toList).getD .unknown
  else .operand

/-- Read the arguments one by one. Reading a group takes a step for each of its flags. -/
def parseArguments : (fuel : Nat) → Parsed → (args : List String) → Except Stop Parsed
  | 0, p, _ => .ok p
  | _, p, [] => .ok p
  | fuel + 1, p, arg :: args =>
    if arg = "--" then
      .ok ((if p.unknown.isEmpty then p else p.addOthers ["--"]).addOthers args)
    else
      match readArgument arg with
      | .flag f =>
        if f.takesValue then
          match args with
          | [] => .error (.missingValue f)
          | value :: args => do parseArguments fuel (← p.setFlag f value) args
        else do parseArguments fuel (← p.setFlag f "") args
      | .valued f value => do parseArguments fuel (← p.setFlag f value) args
      | .grouped f rest => do parseArguments fuel (← p.setFlag f "") (rest :: args)
      | .unknown => parseArguments fuel { p with unknown := p.unknown ++ [arg] } args
      | .operand => parseArguments fuel (p.addOthers [arg]) args

structure Request where
  input : String
  output : String
  options : CommandOptions
  deriving Repr, Inhabited

/-- Help is asked for among the options; unknown options are told before missing operands. -/
def request (p : Parsed) : Except Stop Request :=
  if p.unknown.any helpFlags.contains then .error .help
  else match p.unknown, p.operands with
    | arg :: _, _ => .error (.unknownOption arg)
    | [], input :: output :: _ => .ok ⟨input, output, p.options⟩
    | [], [_] => .error (.missingOperand "output")
    | [], [] => .error (.missingOperand "input")

def parse (args : List String) : Except Stop Request := do
  let fuel := args.foldl (fun n a => n + a.length + 1) 1
  request (← parseArguments fuel {} args)

/-- The run that the arguments ask for, or how the program ends without one. -/
def command (args : List String) : Except Ending Request :=
  (parse args).mapError Stop.ending

end Inliner.CommandLine
