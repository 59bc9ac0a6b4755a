/-!
Log levels and their names.
-/

set_option autoImplicit false
set_option relaxedAutoImplicit false

namespace Offside

inductive LogLevel
  | trace
  | debug
  | info
  | warn
  | error
  deriving DecidableEq

namespace LogLevel

def name : LogLevel → String
  | .trace => "trace"
  | .debug => "debug"
  | .info => "info"
  | .warn => "warn"
  | .error => "error"

def all : List LogLevel := [.trace, .debug, .info, .warn, .error]

/-- The level of a name in letters of either case; `warn` has a second name. -/
def ofName? (text : String) : Option LogLevel :=
  let word := text.map Char.toLower
  if word = "warning" then some .warn else all.find? fun l ↦ l.name = word

def unknownMessage (text : String) : String :=
  "Unknown log level '" ++ text ++ "' (expected trace, debug, info, warn or error)"

end LogLevel

end Offside
