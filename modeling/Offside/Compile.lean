import Offside.Reading.Stmt
import Offside.Scope
import Offside.Simplify
import Offside.ThreeAddress.Placement
import Offside.Token.Layout

/-!
From source text to an executable. A program is accepted if it can be read and passes the scope
check; an accepted program is simplified, if that is asked for, and lowered on one of two ways.
-/

set_option autoImplicit false
set_option relaxedAutoImplicit false

namespace Offside

/-- Why a source text has no executable: the first error of the first stage that fails. -/
inductive SourceError
  | lex (e : LexError)
  | parse (e : ParseError)
  | scope (e : ScopeError)
  | lowering (e : ThreeAddress.PlacementError)
  deriving DecidableEq

namespace SourceError

/-- The error without the stage it comes from. -/
def cause : SourceError → String
  | .lex e => e.message
  | .parse e => e.message
  | .scope e => e.message
  | .lowering e => e.message

def stageName : SourceError → String
  | .lex _ => "Lex"
  | .parse _ => "Parse"
  | .scope _ => "Semantic"
  | .lowering _ => "Lowering"

def message (e : SourceError) : String :=
  e.stageName ++ " error: " ++ e.cause

end SourceError

/-- How the top level of a program becomes stack code. -/
inductive Lowering
  | threeAddress
  | direct
  deriving DecidableEq

namespace Lowering

def name : Lowering → String
  | .threeAddress => "ir"
  | .direct => "direct"

def ofName? (name : String) : Option Lowering :=
  [threeAddress, direct].find? fun l ↦ l.name = name

end Lowering

/-- How a program is compiled. -/
structure CompileOptions where
  simplify : Bool
  lowering : Lowering
  deriving DecidableEq

namespace CompileOptions

def default : CompileOptions := ⟨true, .threeAddress⟩

/-- The program that is lowered. -/
def prepare (o : CompileOptions) (program : Block) : Block :=
  if o.simplify then Offside.simplify program else program

end CompileOptions

/-- Reads a source text. -/
def parse (source : String) : Except SourceError Block := do
  let tokens ← (tokenize source).mapError .lex
  (parseTokens tokens).mapError .parse

/-- Reads a source text and checks it. -/
def analyze (source : String) : Except SourceError Block := do
  let program ← parse source
  (checkScopes program).mapError .scope
  return program

/-- Lowers a program as it is. -/
def lower (lowering : Lowering) (program : Block) :
    Except ThreeAddress.PlacementError Executable :=
  match lowering with
  | .threeAddress => (ThreeAddress.ofProgram program).executable
  | .direct => .ok (lowerDirect program)

/-- Compiles a program that has been read. -/
def compileProgram (o : CompileOptions) (program : Block) : Except SourceError Executable :=
  (lower o.lowering (o.prepare program)).mapError .lowering

/-- Compiles a source text. -/
def compile (o : CompileOptions) (source : String) : Except SourceError Executable := do
  compileProgram o (← analyze source)

end Offside
