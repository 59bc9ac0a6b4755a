/-!
What can be called without a definition: the function `len`, and the method `append` of lists.
-/

set_option autoImplicit false
set_option relaxedAutoImplicit false

namespace Offside

/-- A function that needs no definition. -/
inductive Builtin
  | len
  deriving DecidableEq

namespace Builtin

def name : Builtin → String
  | .len => "len"

def arity : Builtin → Nat
  | .len => 1

def all : List Builtin := [.len]

def ofName? (name : String) : Option Builtin :=
  all.find? fun b ↦ b.name = name

end Builtin

/-- A method that every list has. -/
inductive ListMethod
  | append
  deriving DecidableEq

namespace ListMethod

def name : ListMethod → String
  | .append => "append"

def arity : ListMethod → Nat
  | .append => 1

def all : List ListMethod := [.append]

def ofName? (name : String) : Option ListMethod :=
  all.find? fun m ↦ m.name = name

end ListMethod

end Offside
