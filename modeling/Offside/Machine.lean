import Offside.Run
import Offside.Value.Operations
import Offside.Value.Text

/-!
The stack machine. All calls share one stack of operands. A call keeps its own variables, and where
its caller goes on; reading a variable looks at the innermost call first and then at the global
variables, and writing one always writes into the innermost. An instruction that fails has taken its
operands and changed nothing else.
-/

set_option autoImplicit false
set_option relaxedAutoImplicit false

namespace Offside

/-- A call that is open: its variables, the code of its caller with the place to go on at, and the
instance under construction, if that is what the call is for. -/
structure Call where
  locals : Bindings Value
  callerCode : Code
  callerPlace : Nat
  constructed : Option Value

/-- A machine. The stack has its top first, the calls begin with the innermost, and `depth` counts
them. -/
structure Machine where
  limits : Limits
  stack : List Value
  globals : Bindings Value
  calls : List Call
  depth : Nat
  functions : Bindings (Routine Code)
  classes : Bindings ClassCode
  heap : Heap
  code : Code
  place : Nat
  steps : Nat
  output : Array String

/-- How a step ended: within a block, with a return to the caller, or at the end of the main
block. -/
inductive Status
  | running
  | returned
  | halted
  deriving DecidableEq

namespace Machine

/-- A machine in front of a block, with nothing done yet. -/
def start (limits : Limits) (code : Code) : Machine where
  limits := limits
  stack := []
  globals := .empty
  calls := []
  depth := 0
  functions := .empty
  classes := .empty
  heap := .empty
  code := code
  place := 0
  steps := 0
  output := #[]

/-- The outcome of a step: how it ended or why it failed, and the machine behind it. -/
abbrev Outcome := Except RuntimeError Status × Machine

def goOn (m : Machine) : Outcome :=
  (.ok .running, m)

def fail (m : Machine) (error : RuntimeError) : Outcome :=
  (.error error, m)

/-- Fails for want of operands, having taken what there was. -/
def underflow (m : Machine) : Outcome :=
  fail { m with stack := [] } .stackUnderflow

def push (m : Machine) (value : Value) : Machine :=
  { m with stack := value :: m.stack }

/-- Ends an instruction with a value for the stack, or with an error. -/
def give (m : Machine) : Except RuntimeError Value → Outcome
  | .ok value => goOn (m.push value)
  | .error e => fail m e

/-- Carries out an operation on the heap. -/
def onHeap {α : Type} (m : Machine) (operation : Heap → Heap.Effect α) :
    Except RuntimeError α × Machine :=
  match m with
  | ⟨limits, stack, globals, calls, depth, functions, classes, heap, code, place, steps, output⟩ =>
    let (result, heap) := operation heap
    (result,
      ⟨limits, stack, globals, calls, depth, functions, classes, heap, code, place, steps, output⟩)

/-- Carries out an operation on the heap that gives a value for the stack. -/
def operate (m : Machine) (operation : Heap → Heap.Effect Value) : Outcome :=
  let (result, m) := m.onHeap operation
  m.give result

/-- Carries out an operation on the heap that gives nothing. -/
def change (m : Machine) (operation : Heap → Heap.Effect Unit) : Outcome :=
  match m.onHeap operation with
  | (.ok (), m) => goOn m
  | (.error e, m) => fail m e

/-- The value of a variable. -/
def lookup (m : Machine) (name : String) : Option Value :=
  match m.calls with
  | [] => m.globals.get? name
  | call :: _ => (call.locals.get? name).or (m.globals.get? name)

/-- Binds a variable of the innermost call, or a global one if no call is open. -/
def bind (m : Machine) (name : String) (value : Value) : Machine :=
  match m.calls with
  | [] => { m with globals := m.globals.set name value }
  | call :: calls => { m with calls := { call with locals := call.locals.set name value } :: calls }

/-- Goes on at another place of the same block. -/
def jumpTo (m : Machine) (target : Nat) : Outcome :=
  if target ≤ m.code.size then goOn { m with place := target }
  else fail m (.invalidJumpTarget target m.code.size)

/-- The uppermost values of the stack in the order in which they were pushed, and those below. -/
def operands (m : Machine) (count : Nat) : Option (List Value × List Value) :=
  let taken := m.stack.take count
  if taken.length = count then some (taken.reverse, m.stack.drop count) else none

theorem operands_eq_none_iff {m : Machine} {count : Nat} :
    m.operands count = none ↔ m.stack.length < count := by
  simp only [operands, List.length_take]
  split <;> simp <;> omega

theorem operands_append {m : Machine} {values rest : List Value}
    (h : m.stack = values.reverse ++ rest) :
    m.operands values.length = some (values, rest) := by
  have hlength : values.reverse.length = values.length := List.length_reverse
  simp [operands, h, List.take_left' hlength, List.drop_left' hlength]

/-- Opens a call of a routine and goes to the start of its code. -/
def enter (m : Machine) (r : Routine Code) (args : List Value) (constructed : Option Value) :
    Machine :=
  let locals := Bindings.ofList (r.params.zip args)
  { m with
    calls := ⟨locals, m.code, m.place, constructed⟩ :: m.calls, depth := m.depth + 1,
    code := r.body, place := 0 }

/-- Makes an instance of a class, without running a constructor. -/
def make (m : Machine) (c : ClassCode) : Value × Machine :=
  let (made, heap) := m.heap.newObject c.name c.methods
  (made, { m with heap := heap })

/-- Calls a routine, if it can be entered. -/
def call (m : Machine) (r : Routine Code) (args : List Value) : Outcome :=
  match m.limits.admitEntry r.name r.params args.length m.depth with
  | .error e => fail m e
  | .ok () => goOn (m.enter r args none)

/-- Makes an instance of a class. If the class has a constructor, it is called on the instance,
which stands for the value of the call whatever the constructor returns. -/
def construct (m : Machine) (c : ClassCode) (args : List Value) : Outcome :=
  match c.methods.get? constructorName with
  | some r =>
    match m.limits.admitEntry r.name r.params (args.length + 1) m.depth with
    | .error e => fail m e
    | .ok () =>
      let (made, m) := m.make c
      goOn (m.enter r (made :: args) (some made))
  | none =>
    if args.isEmpty then
      let (made, m) := m.make c
      goOn (m.push made)
    else fail m (.arityMismatch c.name 0 args.length)

/-- Calls what a name stands for: a function before a class. -/
def callNamed (m : Machine) (name : String) (args : List Value) : Outcome :=
  match m.functions.get? name with
  | some r => m.call r args
  | none =>
    match m.classes.get? name with
    | some c => m.construct c args
    | none => fail m (.undefinedFunction name)

/-- Calls a method of a list or an instance. -/
def callMethod (m : Machine) (receiver : Value) (name : String) (args : List Value) : Outcome :=
  match receiver with
  | .list _ => m.operate fun h ↦ h.callListMethod receiver name args
  | .object cell =>
    match (m.heap.instance? cell).bind fun i ↦ i.methods.get? name with
    | some r => m.call r (receiver :: args)
    | none => fail m (.unknownMethod name (m.heap.typeName receiver))
  | _ => fail m (.unknownMethod name (m.heap.typeName receiver))

/-- Returns from the innermost call to its caller. -/
def returnValue (m : Machine) (value : Value) : Outcome :=
  match m.calls with
  | [] => fail m .returnOutsideFunction
  | call :: calls =>
    (.ok .returned,
      { m with
        stack := call.constructed.getD value :: m.stack, calls := calls, depth := m.depth - 1,
        code := call.callerCode, place := call.callerPlace })

/-- Carries out an instruction. Definitions are taken from the given executable. -/
def execute (e : Executable) (m : Machine) : Instr → Outcome
  | .loadConstant value => goOn (m.push (.ofConstant value))
  | .loadVariable name =>
    match m.lookup name with
    | some value => goOn (m.push value)
    | none => fail m (.undefinedVariable name)
  | .storeVariable name =>
    match m.stack with
    | value :: rest => goOn ({ m with stack := rest }.bind name value)
    | [] => m.underflow
  | .arith op =>
    match m.stack with
    | b :: a :: rest => { m with stack := rest }.operate fun h ↦ h.arith op a b
    | _ => m.underflow
  | .compare op =>
    match m.stack with
    | b :: a :: rest =>
      { m with stack := rest }.give ((m.heap.compare op a b).map .boolean)
    | _ => m.underflow
  | .print =>
    match m.stack with
    | value :: rest => goOn { m with stack := rest, output := m.output.push (m.heap.text value) }
    | [] => m.underflow
  | .jump target => m.jumpTo target
  | .jumpIfFalse target =>
    match m.stack with
    | value :: rest =>
      if m.heap.isTruthy value then goOn { m with stack := rest }
      else { m with stack := rest }.jumpTo target
    | [] => m.underflow
  | .buildList count =>
    match m.operands count with
    | some (values, rest) =>
      { m with stack := rest }.operate fun h ↦
        let (list, h) := h.newList values.toArray
        (.ok list, h)
    | none => fail m .stackUnderflow
  | .loadIndex =>
    match m.stack with
    | index :: list :: rest => { m with stack := rest }.give (m.heap.loadIndex list index)
    | _ => m.underflow
  | .storeIndex =>
    match m.stack with
    | value :: index :: list :: rest =>
      { m with stack := rest }.change fun h ↦ h.storeIndex list index value
    | _ => m.underflow
  | .defineFunction name =>
    match e.functions.get? name with
    | some r => goOn { m with functions := m.functions.set name r }
    | none => fail m (.undefinedFunction name)
  | .callFunction name count =>
    match Builtin.ofName? name with
    | some b =>
      if count = b.arity then
        match m.operands count with
        | some (args, rest) => { m with stack := rest }.give (m.heap.callBuiltin b args)
        | none => fail m .stackUnderflow
      else fail m (.arityMismatch b.name b.arity count)
    | none =>
      match m.operands count with
      | some (args, rest) => { m with stack := rest }.callNamed name args
      | none => fail m .stackUnderflow
  | .returnValue =>
    match m.stack with
    | value :: rest => { m with stack := rest }.returnValue value
    | [] => m.underflow
  | .defineClass name =>
    match e.classes.get? name with
    | some c => goOn { m with classes := m.classes.set name c }
    | none => fail m (.undefinedFunction name)
  | .loadAttribute name =>
    match m.stack with
    | object :: rest => { m with stack := rest }.give (m.heap.getAttribute object name)
    | [] => m.underflow
  | .storeAttribute name =>
    match m.stack with
    | value :: object :: rest =>
      { m with stack := rest }.change fun h ↦ h.setAttribute object name value
    | _ => m.underflow
  | .callMethod name count =>
    match m.operands count with
    | some (args, receiver :: rest) => { m with stack := rest }.callMethod receiver name args
    | some (_, []) => m.underflow
    | none => fail m .stackUnderflow
  | .pop =>
    match m.stack with
    | _ :: rest => goOn { m with stack := rest }
    | [] => m.underflow

/-- One step. At the end of a block a call returns without a value and the main block halts, and
neither counts as a step. -/
def step (e : Executable) (m : Machine) : Outcome :=
  match m.code[m.place]? with
  | none => if m.calls.isEmpty then (.ok .halted, m) else m.returnValue .none
  | some instr =>
    match m.limits.admitStep m.steps with
    | .error e => fail m e
    | .ok () => { m with steps := m.steps + 1, place := m.place + 1 }.execute e instr

/-- Steps until the machine halts or fails: the error, if there is one, and the machine then. There
is no result if `fuel` steps do not suffice. -/
def runFrom (e : Executable) : Nat → Machine → Option (Option RuntimeError × Machine)
  | 0, _ => none
  | fuel + 1, m =>
    match m.step e with
    | (.ok .halted, m) => some (none, m)
    | (.ok _, m) => runFrom e fuel m
    | (.error error, m) => some (some error, m)

/-- Runs an executable from the start. The printed lines go to the answer, and the machine behind
the run keeps all else. -/
def runAll (fuel : Nat) (limits : Limits) (e : Executable) : Option (Answer × Machine) :=
  (runFrom e fuel (start limits e.main)).map fun (error, m) ↦
    (⟨m.output.toList, error⟩, { m with output := #[] })

end Machine

/-- The answer of an executable on the machine. There is none if `fuel` steps do not suffice. -/
def Executable.run (e : Executable) (limits : Limits) (fuel : Nat) : Option Answer :=
  (Machine.runAll fuel limits e).map Prod.fst

end Offside
