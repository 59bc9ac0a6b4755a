import Offside.Compile
import Offside.Run
import Offside.Text.Blank
import Offside.Text.Natural

/-!
Settings of a compilation and a run, and how they are read from environment variables. A variable
that is not set leaves its setting as it is.
-/

set_option autoImplicit false
set_option relaxedAutoImplicit false

namespace Offside

structure Settings where
  compile : CompileOptions
  limits : Limits
  deriving DecidableEq

/-- An environment variable with a value that it cannot have. -/
structure SettingError where
  variableName : String
  value : String
  deriving DecidableEq

namespace SettingError

def message (e : SettingError) : String :=
  "Invalid value '" ++ e.value ++ "' for " ++ e.variableName

end SettingError

/-- A way to look up environment variables. -/
abbrev Environment := String → Option String

namespace Settings

def default : Settings := ⟨.default, .unlimited⟩

def simplifyVariable : String := "TINYPY_NO_OPTIMIZE"

def loweringVariable : String := "TINYPY_LOWERING"

def stepsVariable : String := "TINYPY_MAX_STEPS"

def depthVariable : String := "TINYPY_MAX_DEPTH"

/-- A text without blanks around it and in the small letters of ASCII. -/
def normalized (text : String) : String :=
  String.ofList ((Text.trim text.toList).map Char.toLower)

def flag? (text : String) : Option Bool :=
  let word := normalized text
  if word ∈ ["1", "true", "yes", "on"] then some true
  else if word ∈ ["", "0", "false", "no", "off"] then some false
  else none

def number? (text : String) : Option Nat :=
  (Text.natural64 (Text.trim text.toList)).toOption

/-- Changes settings by a variable, if it is set. -/
def readVariable {α : Type} (lookup : Environment) (variableName : String)
    (read? : String → Option α) (change : α → Settings → Settings) (s : Settings) :
    Except SettingError Settings :=
  match lookup variableName with
  | none => .ok s
  | some text =>
    match read? text with
    | some a => .ok (change a s)
    | none => .error ⟨variableName, text⟩

/-- The settings that the environment gives; the first variable with an invalid value decides. -/
def ofEnvironment (lookup : Environment) : Except SettingError Settings := do
  let s ← readVariable lookup simplifyVariable flag?
    (fun off s ↦ { s with compile := { s.compile with simplify := !off } }) default
  let s ← readVariable lookup loweringVariable (fun text ↦ Lowering.ofName? (normalized text))
    (fun lowering s ↦ { s with compile := { s.compile with lowering := lowering } }) s
  let s ← readVariable lookup stepsVariable number?
    (fun n s ↦ { s with limits := { s.limits with steps := some n } }) s
  readVariable lookup depthVariable number?
    (fun n s ↦ { s with limits := { s.limits with depth := some n } }) s

end Settings

end Offside
