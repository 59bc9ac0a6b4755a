import Offside.Run
import Offside.Value.Operations
import Offside.Value.Text

/-!
The tree walk: a program is run by walking its tree. A step is one statement or one finished
iteration of a loop. A definition can be called once its statement has run. Loops and calls take
fuel; a walk that runs out of it has no answer.
-/

set_option autoImplicit false
set_option relaxedAutoImplicit false

namespace Offside

/-- What a walk has done so far. In a routine, `locals` are the variables of its call. -/
structure WalkState where
  globals : Bindings Value
  locals : Option (Bindings Value)
  functions : Bindings (Routine Block)
  classes : Bindings (Class Block)
  heap : Heap
  steps : Nat
  depth : Nat
  output : Array String

/-- Why a walk stops before its end. -/
inductive Interrupt
  | error (e : RuntimeError)
  | outOfFuel
  deriving DecidableEq

/-- A part of a walk. -/
abbrev Walk := ExceptT Interrupt (StateM WalkState)

/-- How a statement ended: the next one is due, or the routine returns. -/
inductive Completion
  | next
  | returned (value : Value)

namespace WalkState

def initial : WalkState where
  globals := .empty
  locals := none
  functions := .empty
  classes := .empty
  heap := .empty
  steps := 0
  depth := 0
  output := #[]

/-- The value of a variable, looked for in the routine before the global variables. -/
def lookup (s : WalkState) (name : String) : Option Value :=
  match s.locals with
  | none => s.globals.get? name
  | some locals => (locals.get? name).or (s.globals.get? name)

/-- Binds a variable of the routine, or a global one outside of routines. -/
def bind (s : WalkState) (name : String) (value : Value) : WalkState :=
  match s.locals with
  | none => { s with globals := s.globals.set name value }
  | some locals => { s with locals := some (locals.set name value) }

end WalkState

namespace Walk

def fail {α : Type} (e : RuntimeError) : Walk α :=
  throw (.error e)

def ofExcept {α : Type} : Except RuntimeError α → Walk α
  | .ok a => pure a
  | .error e => fail e

/-- Counts a step, if the limit admits it. -/
def tick (limits : Limits) : Walk Unit := do
  ofExcept (limits.admitStep (← get).steps)
  modify fun s ↦ { s with steps := s.steps + 1 }

def load (name : String) : Walk Value := do
  match (← get).lookup name with
  | some value => return value
  | none => fail (.undefinedVariable name)

def store (name : String) (value : Value) : Walk Unit :=
  modify fun s ↦ s.bind name value

/-- Carries out an operation on the heap. -/
def onHeap {α : Type} (operation : Heap → Heap.Effect α) : Walk α :=
  ExceptT.mk fun
    | ⟨globals, locals, functions, classes, heap, steps, depth, output⟩ =>
      let (result, heap) := operation heap
      (result.mapError .error, ⟨globals, locals, functions, classes, heap, steps, depth, output⟩)

/-- What looking at the heap gives. -/
def observe {α : Type} (reading : Heap → Except RuntimeError α) : Walk α := do
  ofExcept (reading (← get).heap)

/-- Adds a cell to the heap. -/
def allocate (cell : Heap → Value × Heap) : Walk Value :=
  onHeap fun h ↦
    let (value, h) := cell h
    (.ok value, h)

/-- A way to run the body of a routine with arguments. -/
abbrev Invocation := Routine Block → List Value → Walk Value

/-- Calls what a name stands for: a function that needs no definition, a function, or a class, whose
constructor runs on the new instance. -/
def call (invoke : Invocation) (name : String) (args : List Value) : Walk Value := do
  match Builtin.ofName? name with
  | some b => observe fun h ↦ h.callBuiltin b args
  | none =>
    match (← get).functions.get? name with
    | some r => invoke r args
    | none =>
      match (← get).classes.get? name with
      | none => fail (.undefinedFunction name)
      | some c =>
        let made ← allocate fun h ↦ h.newObject c.name .empty
        match c.method? constructorName with
        | some r =>
          let _ ← invoke r (made :: args)
          return made
        | none =>
          if args.isEmpty then return made
          else fail (.arityMismatch c.name 0 args.length)

/-- Calls a method of a list, or of an instance by way of the class that has the name of its own. -/
def callMethod (invoke : Invocation) (receiver : Value) (name : String) (args : List Value) :
    Walk Value := do
  match receiver with
  | .list _ => onHeap fun h ↦ h.callListMethod receiver name args
  | .object cell =>
    let className := (← get).heap.className cell
    match ((← get).classes.get? className).bind fun c ↦ c.method? name with
    | some r => invoke r (receiver :: args)
    | none => fail (.unknownMethod name className)
  | _ => fail (.unknownMethod name ((← get).heap.typeName receiver))

mutual

/-- The value of an expression, its parts evaluated from left to right. -/
def eval (invoke : Invocation) : Expr → Walk Value
  | .number n => return .number n
  | .boolean b => return .boolean b
  | .variable name => load name
  | .arith op left right => do
    let a ← eval invoke left
    let b ← eval invoke right
    onHeap fun h ↦ h.arith op a b
  | .compare op left right => do
    let a ← eval invoke left
    let b ← eval invoke right
    return .boolean (← observe fun h ↦ h.compare op a b)
  | .call name args => do
    call invoke name (← evalAll invoke args)
  | .list items => do
    let values ← evalAll invoke items
    allocate fun h ↦ h.newList values.toArray
  | .index name position => do
    let list ← load name
    let index ← eval invoke position
    observe fun h ↦ h.loadIndex list index
  | .member object name => do
    let v ← load object
    observe fun h ↦ h.getAttribute v name
  | .methodCall object method args => do
    let receiver ← load object
    callMethod invoke receiver method (← evalAll invoke args)

def evalAll (invoke : Invocation) : List Expr → Walk (List Value)
  | [] => return []
  | e :: es => do
    let value ← eval invoke e
    return value :: (← evalAll invoke es)

end

/-- Repeats a turn, which either gives the state of the next or ends the loop with a result. -/
def iterate {σ α : Type} (turn : σ → Walk (σ ⊕ α)) : Nat → σ → Walk α
  | 0, _ => throw .outOfFuel
  | fuel + 1, s => do
    match ← turn s with
    | .inl s => iterate turn fuel s
    | .inr a => return a

mutual

/-- Runs a statement. -/
def exec (limits : Limits) (fuel : Nat) (invoke : Invocation) (s : Stmt) : Walk Completion := do
  tick limits
  match s with
  | .assign name value =>
    store name (← eval invoke value)
    return .next
  | .assignIndex name position value =>
    let list ← load name
    let index ← eval invoke position
    let value ← eval invoke value
    onHeap fun h ↦ h.storeIndex list index value
    return .next
  | .assignAttribute object name value =>
    let v ← load object
    let value ← eval invoke value
    onHeap fun h ↦ h.setAttribute v name value
    return .next
  | .print value =>
    let v ← eval invoke value
    modify fun s ↦ { s with output := s.output.push (s.heap.text v) }
    return .next
  | .expr value =>
    let _ ← eval invoke value
    return .next
  | .ifElse condition body orelse =>
    let v ← eval invoke condition
    if (← get).heap.isTruthy v then execBlock limits fuel invoke body
    else execBlock limits fuel invoke orelse
  | .whileLoop condition body =>
    let turn (_ : Unit) : Walk (Unit ⊕ Completion) := do
      let v ← eval invoke condition
      if (← get).heap.isTruthy v then
        match ← execBlock limits fuel invoke body with
        | .returned value => return .inr (.returned value)
        | .next =>
          tick limits
          return .inl ()
      else return .inr .next
    iterate turn fuel ()
  | .forRange name start stop body =>
    let first ← eval invoke start
    let bound ← eval invoke stop
    let turn (counter : Value) : Walk (Value ⊕ Completion) := do
      if ← observe fun h ↦ h.compare .lt counter bound then
        store name counter
        match ← execBlock limits fuel invoke body with
        | .returned value => return .inr (.returned value)
        | .next =>
          let next ← onHeap fun h ↦ h.arith .add counter (.number (.int 1))
          tick limits
          return .inl next
      else return .inr .next
    iterate turn fuel first
  | .define routine =>
    modify fun s ↦ { s with functions := s.functions.set routine.name routine }
    return .next
  | .defineClass definition =>
    modify fun s ↦ { s with classes := s.classes.set definition.name definition }
    return .next
  | .return none => return .returned .none
  | .return (some value) => return .returned (← eval invoke value)
  | .pass => return .next

/-- Runs statements in a row, up to one that returns. -/
def execBlock (limits : Limits) (fuel : Nat) (invoke : Invocation) :
    List Stmt → Walk Completion
  | [] => return .next
  | s :: ss => do
    match ← exec limits fuel invoke s with
    | .returned value => return .returned value
    | .next => execBlock limits fuel invoke ss

end

/-- Runs the body of a routine on its arguments, with variables of its own. -/
def invoke (limits : Limits) : Nat → Invocation
  | 0, _, _ => throw .outOfFuel
  | fuel + 1, r, args => do
    let depth := (← get).depth
    let outer := (← get).locals
    ofExcept (limits.admitEntry r.name r.params args.length depth)
    let locals := Bindings.ofList (r.params.zip args)
    modify fun s ↦ { s with locals := some locals, depth := depth + 1 }
    let completion ← execBlock limits fuel (invoke limits fuel) r.body
    modify fun s ↦ { s with locals := outer, depth := depth }
    match completion with
    | .returned value => return value
    | .next => return .none

/-- Runs a whole program. -/
def program (limits : Limits) (fuel : Nat) (statements : Block) : Walk Unit := do
  match ← execBlock limits fuel (invoke limits fuel) statements with
  | .next => return ()
  | .returned _ => fail .returnOutsideFunction

end Walk

/-- The answer of a program that is walked. There is none if the walk runs out of fuel. -/
def walk (program : Block) (limits : Limits) (fuel : Nat) : Option Answer :=
  match (Walk.program limits fuel program).run.run .initial with
  | (.ok (), s) => some ⟨s.output.toList, none⟩
  | (.error (.error e), s) => some ⟨s.output.toList, some e⟩
  | (.error .outOfFuel, _) => none

end Offside
