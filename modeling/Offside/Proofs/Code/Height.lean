import Offside.Code

/-!
The height of the stack along a block of code. An instruction takes so many operands, leaves so many
values, and leads to so many places (`Instr.pops`, `Instr.pushes`, `Instr.LeadsTo`). Heights of a
block are one number for each of its places, on which all ways through the block agree
(`Code.Heights`). A main block may be left at its end, and with nothing on the stack; the block of a
routine is left by a return only.
-/

set_option autoImplicit false
set_option relaxedAutoImplicit false

namespace Offside

namespace Instr

/-- How many operands an instruction takes from the stack. -/
def pops : Instr → Nat
  | .loadConstant _ => 0
  | .loadVariable _ => 0
  | .storeVariable _ => 1
  | .arith _ => 2
  | .compare _ => 2
  | .print => 1
  | .jump _ => 0
  | .jumpIfFalse _ => 1
  | .buildList count => count
  | .loadIndex => 2
  | .storeIndex => 3
  | .defineFunction _ => 0
  | .callFunction _ count => count
  | .returnValue => 1
  | .defineClass _ => 0
  | .loadAttribute _ => 1
  | .storeAttribute _ => 2
  | .callMethod _ count => count + 1
  | .pop => 1

/-- How many values an instruction leaves on the stack. That of a call is there when it has
returned. -/
def pushes : Instr → Nat
  | .loadConstant _ => 1
  | .loadVariable _ => 1
  | .arith _ => 1
  | .compare _ => 1
  | .buildList _ => 1
  | .loadIndex => 1
  | .callFunction _ _ => 1
  | .loadAttribute _ => 1
  | .callMethod _ _ => 1
  | _ => 0

/-- The place that an instruction can jump to. -/
def target? : Instr → Option Nat
  | .jump target => some target
  | .jumpIfFalse target => some target
  | _ => none

/-- Whether execution can go on behind an instruction. -/
def fallsThrough : Instr → Bool
  | .jump _ => false
  | .returnValue => false
  | _ => true

/-- From an instruction at the one place, execution can go on at the other in the same block. -/
def LeadsTo (i : Instr) (place next : Nat) : Prop :=
  (i.fallsThrough = true ∧ next = place + 1) ∨ i.target? = some next

end Instr

namespace Code

variable {code : Code} {height : Nat → Nat}

/-- Heights of the stack for all places of a block. Nothing is on the stack at the start; an
instruction finds its operands, and leads to places where the stack is as high as it leaves it; and
a return finds the value that it returns and nothing else. -/
structure Heights (code : Code) (height : Nat → Nat) : Prop where
  start : height 0 = 0
  enough : ∀ place (i : Instr), code[place]? = some i → i.pops ≤ height place
  edge : ∀ place (i : Instr) next, code[place]? = some i → i.LeadsTo place next →
    next ≤ code.size ∧ height next + i.pops = height place + i.pushes
  returns : ∀ place, code[place]? = some .returnValue → height place = 1

/-- A main block: it leaves nothing on the stack at its end. -/
def BalancedMain (code : Code) : Prop :=
  ∃ height, code.Heights height ∧ height code.size = 0

/-- The block of a routine: it does not end but by a return. -/
def BalancedRoutine (code : Code) : Prop :=
  ∃ height, code.Heights height ∧ 0 < code.size ∧
    ∀ place (i : Instr) next, code[place]? = some i → i.LeadsTo place next → next < code.size

/-- Where a block has heights, its jumps lead into it or right behind its end. -/
theorem Heights.jumpsInBounds (h : code.Heights height) : code.jumpsInBounds = true := by
  refine jumpsInBounds_iff.mpr fun target hmem ↦ ?_
  rcases hmem with hmem | hmem
  · obtain ⟨place, hplace⟩ := Array.getElem?_of_mem hmem
    exact (h.edge place _ target hplace (.inr rfl)).1
  · obtain ⟨place, hplace⟩ := Array.getElem?_of_mem hmem
    exact (h.edge place _ target hplace (.inr rfl)).1

end Code

end Offside
