import Offside.Backend
import Offside.LogLevel
import Offside.Syntax.Outline

/-!
The command line: its options, and the response to a source text under given options. Options are
read from left to right on top of the settings of the environment, and the first fault decides.
-/

set_option autoImplicit false
set_option relaxedAutoImplicit false

namespace Offside.CommandLine

/-- What is shown in place of a run. -/
inductive View
  | tokens
  | tree
  | threeAddress
  | code
  deriving DecidableEq

namespace View

def name : View → String
  | .tokens => "tokens"
  | .tree => "ast"
  | .threeAddress => "ir"
  | .code => "bytecode"

def all : List View := [.tokens, .tree, .threeAddress, .code]

def ofName? (name : String) : Option View :=
  all.find? fun v ↦ v.name = name

end View

structure Options where
  backend : String
  view : Option View
  logLevel : Option LogLevel
  inputPath : Option String
  help : Bool
  settings : Settings

namespace Options

def initial (s : Settings) : Options where
  backend := Backend.machine.name
  view := none
  logLevel := none
  inputPath := none
  help := false
  settings := s

def setSimplify (o : Options) (simplify : Bool) : Options :=
  { o with
    settings := { o.settings with compile := { o.settings.compile with simplify := simplify } } }

def setLowering (o : Options) (lowering : Lowering) : Options :=
  { o with
    settings := { o.settings with compile := { o.settings.compile with lowering := lowering } } }

def setSteps (o : Options) (limit : Nat) : Options :=
  { o with
    settings := { o.settings with limits := { o.settings.limits with steps := some limit } } }

def setDepth (o : Options) (limit : Nat) : Options :=
  { o with
    settings := { o.settings with limits := { o.settings.limits with depth := some limit } } }

end Options

def usage : String :=
  "usage: tinypy [--backend vm|interpreter] [--emit tokens|ast|ir|bytecode] [--no-optimize] " ++
    "[--direct] [--max-steps N] [--max-depth N] [--log-level LEVEL] [FILE]"

/-- Why arguments give no options. -/
inductive UsageError
  | missingValue (flag : String)
  | unknownView (name : String)
  | invalidNumber (flag value : String) (cause : Text.NaturalError)
  | unknownLogLevel (name : String)
  | unknownOption (flag : String)
  | secondInput
  deriving DecidableEq

namespace UsageError

def message : UsageError → String
  | .missingValue flag => "Missing value after " ++ flag
  | .unknownView name => "Unknown emit target '" ++ name ++ "'"
  | .invalidNumber flag value _ => "Invalid " ++ flag ++ " '" ++ value ++ "'"
  | .unknownLogLevel name => LogLevel.unknownMessage name
  | .unknownOption flag => "Unknown option '" ++ flag ++ "'\n" ++ usage
  | .secondInput => "Only one input file is supported"

def cause? : UsageError → Option String
  | .invalidNumber _ _ cause => some cause.message
  | _ => none

end UsageError

/-- An option that takes the argument behind it. -/
inductive ValueFlag
  | backend
  | view
  | maxSteps
  | maxDepth
  | logLevel

def valueFlag? : String → Option ValueFlag
  | "--backend" => some .backend
  | "-b" => some .backend
  | "--emit" => some .view
  | "--max-steps" => some .maxSteps
  | "--max-depth" => some .maxDepth
  | "--log-level" => some .logLevel
  | _ => none

def readNumber (flag value : String) : Except UsageError Nat :=
  (Text.natural64 value.toList).mapError (.invalidNumber flag value)

/-- Applies an option with its value. -/
def Options.setValue (o : Options) (flag value : String) :
    ValueFlag → Except UsageError Options
  | .backend => .ok { o with backend := value }
  | .view =>
    match View.ofName? value with
    | some view => .ok { o with view := some view }
    | none => .error (.unknownView value)
  | .maxSteps => (readNumber flag value).map o.setSteps
  | .maxDepth => (readNumber flag value).map o.setDepth
  | .logLevel =>
    match LogLevel.ofName? value with
    | some level => .ok { o with logLevel := some level }
    | none => .error (.unknownLogLevel value)

/-- Applies an argument that stands for itself: an option without a value, or the input file. -/
def Options.setAlone (o : Options) (arg : String) : Except UsageError Options :=
  match arg with
  | "--no-optimize" => .ok (o.setSimplify false)
  | "--direct" => .ok (o.setLowering .direct)
  | "--help" => .ok { o with help := true }
  | "-h" => .ok { o with help := true }
  | arg =>
    if arg.toList.head? = some '-' then .error (.unknownOption arg)
    else if o.inputPath.isSome then .error .secondInput
    else .ok { o with inputPath := some arg }

/-- Applies arguments from left to right. -/
def Options.read (o : Options) : List String → Except UsageError Options
  | [] => .ok o
  | arg :: rest =>
    match valueFlag? arg with
    | none => do
      let o ← o.setAlone arg
      o.read rest
    | some flag =>
      match rest with
      | [] => .error (.missingValue arg)
      | value :: rest => do
        let o ← o.setValue arg value flag
        o.read rest

/-- The options that arguments give on top of settings. -/
def readArguments (s : Settings) (args : List String) : Except UsageError Options :=
  (Options.initial s).read args

/-- Why a command fails, with the cause behind that, if it is told apart. -/
structure Failure where
  message : String
  cause : Option String

namespace Failure

def ofUsage (e : UsageError) : Failure :=
  ⟨e.message, e.cause?⟩

def ofSource (e : SourceError) : Failure :=
  ⟨e.message, some e.cause⟩

def ofRuntime (e : RuntimeError) : Failure :=
  ⟨e.report, some e.message⟩

/-- How a failure is reported. -/
def report (f : Failure) : String :=
  "Error: " ++ f.message ++ "\n" ++
    match f.cause with
    | some cause => "\nCaused by:\n    " ++ cause ++ "\n"
    | none => ""

end Failure

/-- What a command writes, and whether it failed. -/
structure Response where
  output : String
  failure : Option Failure

namespace Response

def success (output : String) : Response := ⟨output, none⟩

def failed (f : Failure) : Response := ⟨"", some f⟩

def exitCode (r : Response) : Nat :=
  if r.failure.isSome then 1 else 0

def errorOutput (r : Response) : String :=
  (r.failure.map Failure.report).getD ""

end Response

/-- Lines of output. -/
def text (lines : List String) : String :=
  String.join (lines.map (· ++ "\n"))

/-- Shows a stage of the compilation of a source text. -/
def present (o : CompileOptions) (source : String) : View → Except Failure String
  | .tokens =>
    match tokenize source with
    | .ok tokens => .ok (text (tokens.map PlacedToken.listed))
    | .error e => .error ⟨e.message, none⟩
  | .tree => do
    let program ← (analyze source).mapError .ofSource
    return text (outlineLines (o.prepare program))
  | .threeAddress => do
    let program ← (analyze source).mapError .ofSource
    return text (ThreeAddress.listing (ThreeAddress.ofProgram (o.prepare program)).ops)
  | .code => do
    let executable ← (compile o source).mapError .ofSource
    return text executable.listing

/-- The output of a run; nothing is written where nothing was printed. -/
def runOutput (a : Answer) : String :=
  if a.output.isEmpty then "" else a.output ++ "\n"

/-- Runs a source text. There is no response where `fuel` does not suffice. -/
def execute (backend : String) (s : Settings) (source : String) (fuel : Nat) : Option Response :=
  match Backend.ofName? backend with
  | none => some (.failed ⟨"Unknown backend '" ++ backend ++ "'", none⟩)
  | some b =>
    match (analyze source).bind (b.prepare s) with
    | .error e => some (.failed (.ofSource e))
    | .ok run =>
      (run fuel).map fun answer ↦ ⟨runOutput answer, answer.error.map .ofRuntime⟩

/-- The response to a source text. -/
def respond (o : Options) (source : String) (fuel : Nat) : Option Response :=
  match o.view with
  | none => execute o.backend o.settings source fuel
  | some view =>
    match present o.settings.compile source view with
    | .ok output => some (.success output)
    | .error f => some (.failed f)

def logVariable : String := "TINYPY_LOG"

/-- What is left to do once the arguments have been read: nothing but respond, or respond to the
text of the input. -/
inductive Plan
  | done (response : Response)
  | answer (options : Options)

/-- Reads environment and arguments. Help comes before the log level is looked at, which the
environment gives unless an argument does. -/
def plan (lookup : Environment) (args : List String) : Plan :=
  match Settings.ofEnvironment lookup with
  | .error e => .done (.failed ⟨e.message, none⟩)
  | .ok s =>
    match readArguments s args with
    | .error e => .done (.failed (.ofUsage e))
    | .ok o =>
      if o.help then .done (.success (usage ++ "\n"))
      else
        match o.logLevel, lookup logVariable with
        | none, some level =>
          if (LogLevel.ofName? level).isSome then .answer o
          else .done (.failed ⟨LogLevel.unknownMessage level, none⟩)
        | _, _ => .answer o

/-- The response where the input could not be read. -/
def unreadable (path : Option String) (cause : String) : Response :=
  .failed ⟨"Reading " ++ path.getD "stdin", some cause⟩

/-- The cause reported for a file that is not there. -/
def missingFile : String := "No such file or directory (os error 2)"

/-- A whole command, given the files and the standard input that it can read. -/
def respondTo (lookup : Environment) (args : List String) (file? : String → Option String)
    (input : String) (fuel : Nat) : Option Response :=
  match plan lookup args with
  | .done response => some response
  | .answer o =>
    match o.inputPath with
    | none => respond o input fuel
    | some path =>
      match file? path with
      | some source => respond o source fuel
      | none => some (unreadable path missingFile)

end Offside.CommandLine
