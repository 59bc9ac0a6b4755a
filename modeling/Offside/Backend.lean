import Offside.Machine
import Offside.Settings
import Offside.TreeWalk

/-!
The two ways to run a program that has been read: on the stack machine, or by walking its tree. The
tree walk takes the program as it is, whatever the settings say about its compilation.
-/

set_option autoImplicit false
set_option relaxedAutoImplicit false

namespace Offside

inductive Backend
  | machine
  | treeWalk
  deriving DecidableEq

namespace Backend

def name : Backend → String
  | .machine => "vm"
  | .treeWalk => "interpreter"

def all : List Backend := [.treeWalk, .machine]

def ofName? (name : String) : Option Backend :=
  all.find? fun b ↦ b.name = name

/-- A program made ready to run under given limits, any number of times. There is no answer where
`fuel` does not suffice. -/
def prepare (b : Backend) (s : Settings) (program : Block) :
    Except SourceError (Nat → Option Answer) :=
  match b with
  | .machine => do
    let executable ← compileProgram s.compile program
    return executable.run s.limits
  | .treeWalk => .ok (walk program s.limits)

end Backend

end Offside
