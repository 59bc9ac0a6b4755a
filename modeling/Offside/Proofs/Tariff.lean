import Offside.Compile
import Offside.Proofs.Walk.Ensures

/-!
The metered walk: the tree walk with a count of machine instructions in place of its count of steps.
A tariff says what the parts of a program cost under one way of lowering it. The bodies of routines
are lowered directly whichever way the top level goes, so `Tariff.invoke` charges for them by the
direct tariff. That a metered walk has the answers of the plain one is shown in
`Offside.Proofs.Tariff.Erasure`, and that the machine executes as many instructions as it charges
for in `Offside.Proofs.Realization.Program`.
-/

set_option autoImplicit false
set_option relaxedAutoImplicit false

namespace Offside

/-- What the parts of a program cost, in instructions. `operand` is the price of bringing back a
value that has been computed, and `result` that of putting one away; a value stays on the stack
where both are free. `keep` is the price of keeping the bound of a counting loop, and `skip` that of
passing over the other branch of a conditional. -/
structure Tariff where
  literal : Nat
  lookup : Nat
  operand : Nat
  result : Nat
  discard : Nat
  keep : Expr → Nat
  skip : Block → Nat

/-- Whether an expression is a bare variable. -/
def Expr.isVariable : Expr → Bool
  | .variable _ => true
  | _ => false

namespace Tariff

/-- The prices of direct lowering, where values stay on the stack. -/
def direct : Tariff where
  literal := 1
  lookup := 1
  operand := 0
  result := 0
  discard := 1
  keep _ := 1
  skip orelse := if orelse.isEmpty then 0 else 1

/-- The prices of lowering through the three-address form, where values go through variables. -/
def threeAddress : Tariff where
  literal := 2
  lookup := 0
  operand := 1
  result := 1
  discard := 0
  keep stop := if stop.isVariable then 2 else 0
  skip _ := 1

/-- The tariff of a lowering. -/
def ofLowering : Lowering → Tariff
  | .threeAddress => threeAddress
  | .direct => direct

/-- Adds to the count of instructions. -/
def charge (n : Nat) : Walk Unit :=
  modify fun s ↦ { s with steps := s.steps + n }

variable (t : Tariff)

/-- Charges for an instruction and its operands, and carries it out. -/
def perform {α : Type} (operands : Nat) (action : Walk α) : Walk α := do
  charge (operands * t.operand)
  charge 1
  action

/-- The same for an instruction with a result, which is put away. -/
def operate {α : Type} (operands : Nat) (action : Walk α) : Walk α := do
  let a ← t.perform operands action
  charge t.result
  return a

/-- Reads a variable. -/
def load (name : String) : Walk Value := do
  charge t.lookup
  Walk.load name

mutual

/-- The value of an expression. -/
def eval (invoke : Walk.Invocation) : Expr → Walk Value
  | .number n => do
    charge t.literal
    return .number n
  | .boolean b => do
    charge t.literal
    return .boolean b
  | .variable name => t.load name
  | .arith op left right => do
    let a ← eval invoke left
    let b ← eval invoke right
    t.operate 2 (Walk.onHeap fun h ↦ h.arith op a b)
  | .compare op left right => do
    let a ← eval invoke left
    let b ← eval invoke right
    t.operate 2 (Walk.observe fun h ↦ (h.compare op a b).map .boolean)
  | .call name args => do
    let values ← evalAll invoke args
    t.operate args.length (Walk.call invoke name values)
  | .list items => do
    let values ← evalAll invoke items
    t.operate items.length (Walk.allocate fun h ↦ h.newList values.toArray)
  | .index name position => do
    let list ← t.load name
    let index ← eval invoke position
    t.operate 2 (Walk.observe fun h ↦ h.loadIndex list index)
  | .member object name => do
    let v ← t.load object
    t.operate 1 (Walk.observe fun h ↦ h.getAttribute v name)
  | .methodCall object method args => do
    let receiver ← t.load object
    let values ← evalAll invoke args
    t.operate (args.length + 1) (Walk.callMethod invoke receiver method values)

def evalAll (invoke : Walk.Invocation) : List Expr → Walk (List Value)
  | [] => return []
  | e :: es => do
    let value ← eval invoke e
    let values ← evalAll invoke es
    return value :: values

end

/-- Decides on the truth of a value that has been computed. -/
def test (v : Value) : Walk Bool :=
  t.perform 1 do return (← get).heap.isTruthy v

/-- Goes on with the rest of a turn behind the body of a loop. -/
def endTurn {σ : Type} (rest : Walk σ) : Completion → Walk (σ ⊕ Completion)
  | .returned value => return .inr (.returned value)
  | .next => do
    let s ← rest
    charge 1
    return .inl s

/-- A turn of a loop on a condition. -/
def whileTurn (condition : Walk Value) (body : Walk Completion) :
    Unit → Walk (Unit ⊕ Completion) := fun _ ↦ do
  if ← t.test (← condition) then
    endTurn (return ()) (← body)
  else return .inr .next

/-- The step of a loop counter. -/
def countUp (counter : Value) : Walk Value := do
  charge t.lookup
  charge t.literal
  let next ← t.operate 2 (Walk.onHeap fun h ↦ h.arith .add counter (.number (.int 1)))
  t.perform 1 (return next)

/-- A turn of a counting loop. -/
def forTurn (name : String) (bound : Value) (body : Walk Completion) :
    Value → Walk (Value ⊕ Completion) := fun counter ↦ do
  charge t.lookup
  charge t.lookup
  let below ← t.operate 2 (Walk.observe fun h ↦ (h.compare .lt counter bound).map Value.boolean)
  if ← t.test below then
    charge t.lookup
    t.perform 1 (Walk.store name counter)
    endTurn (t.countUp counter) (← body)
  else return .inr .next

mutual

/-- Runs a statement. -/
def exec (fuel : Nat) (invoke : Walk.Invocation) : Stmt → Walk Completion
  | .assign name value => do
    let v ← t.eval invoke value
    t.perform 1 (Walk.store name v)
    return .next
  | .assignIndex name position value => do
    let list ← t.load name
    let index ← t.eval invoke position
    let v ← t.eval invoke value
    t.perform 3 (Walk.onHeap fun h ↦ h.storeIndex list index v)
    return .next
  | .assignAttribute object name value => do
    let o ← t.load object
    let v ← t.eval invoke value
    t.perform 2 (Walk.onHeap fun h ↦ h.setAttribute o name v)
    return .next
  | .print value => do
    let v ← t.eval invoke value
    t.perform 1 (modify fun s ↦ { s with output := s.output.push (s.heap.text v) })
    return .next
  | .expr value => do
    let _ ← t.eval invoke value
    charge t.discard
    return .next
  | .ifElse condition body orelse => do
    if ← t.test (← t.eval invoke condition) then
      match ← execBlock fuel invoke body with
      | .returned value => return .returned value
      | .next =>
        charge (t.skip orelse)
        return .next
    else execBlock fuel invoke orelse
  | .whileLoop condition body =>
    Walk.iterate (t.whileTurn (t.eval invoke condition) (execBlock fuel invoke body)) fuel ()
  | .forRange name start stop body => do
    let first ← t.eval invoke start
    t.perform 1 (return ())
    let bound ← t.eval invoke stop
    charge (t.keep stop)
    Walk.iterate (t.forTurn name bound (execBlock fuel invoke body)) fuel first
  | .define routine => do
    charge 1
    modify fun s ↦ { s with functions := s.functions.set routine.name routine }
    return .next
  | .defineClass definition => do
    charge 1
    modify fun s ↦ { s with classes := s.classes.set definition.name definition }
    return .next
  | .return none => do
    charge 1
    return .returned .none
  | .return (some value) => do
    let v ← t.eval invoke value
    charge t.operand
    return .returned v
  | .pass => return .next

/-- Runs statements in a row, up to one that returns. -/
def execBlock (fuel : Nat) (invoke : Walk.Invocation) : List Stmt → Walk Completion
  | [] => return .next
  | s :: ss => do
    match ← exec fuel invoke s with
    | .returned value => return .returned value
    | .next => execBlock fuel invoke ss

end

/-- Runs the body of a routine on its arguments. The return is an instruction, and so is the value
that is returned where the body ends without a return. -/
def invoke (limits : Limits) : Nat → Walk.Invocation
  | 0, _, _ => throw .outOfFuel
  | fuel + 1, r, args => do
    let depth := (← get).depth
    let outer := (← get).locals
    Walk.ofExcept (limits.admitEntry r.name r.params args.length depth)
    let locals := Bindings.ofList (r.params.zip args)
    modify fun s ↦ { s with locals := some locals, depth := depth + 1 }
    let completion ← direct.execBlock fuel (invoke limits fuel) r.body
    modify fun s ↦ { s with locals := outer, depth := depth }
    match completion with
    | .returned value =>
      charge 1
      return value
    | .next =>
      charge 2
      return .none

/-- Runs a whole program. -/
def program (limits : Limits) (fuel : Nat) (statements : Block) : Walk Unit := do
  match ← t.execBlock fuel (invoke limits fuel) statements with
  | .next => return ()
  | .returned _ =>
    charge 1
    Walk.fail .returnOutsideFunction

/-- The answer of a program that is walked with a meter, and the instructions it is charged for. -/
def counted (limits : Limits) (fuel : Nat) (statements : Block) : Option (Answer × Nat) :=
  let o := Walk.outcome (t.program limits fuel statements) .initial
  (Walk.answer? o).map fun a ↦ (a, o.2.steps)

end Tariff

end Offside
