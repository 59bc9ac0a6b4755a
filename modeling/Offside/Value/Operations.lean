import Offside.Builtin
import Offside.Value.Equality

/-!
Operations on values. An operation that only looks at the heap gives its result or fails; one that
can change the heap gives the heap behind it as well, which is the heap before it where it fails.
-/

set_option autoImplicit false
set_option relaxedAutoImplicit false

namespace Offside.Heap

/-- The result of an operation, and the heap behind it. -/
abbrev Effect (α : Type) := Except RuntimeError α × Heap

/-- An arithmetic operation. Numbers and booleans are computed with; the sum of two lists is a new
list. -/
def arith (h : Heap) (op : ArithOp) (a b : Value) : Effect Value :=
  match a.number?, b.number? with
  | some x, some y =>
    match x.apply op y with
    | .ok z => (.ok (.number z), h)
    | .error e => (.error (.ofArithmetic e), h)
  | _, _ =>
    match op, a, b with
    | .add, .list i, .list j =>
      let joined := h.elements i ++ h.elements j
      let (list, h) := h.newList joined
      (.ok list, h)
    | _, _, _ => (.error (.typeMismatch op.symbol (h.typeName a) (h.typeName b)), h)

/-- A comparison. Any two values are equal or not; only numbers and booleans stand in an order. -/
def compare (h : Heap) (op : CompareOp) (a b : Value) : Except RuntimeError Bool :=
  match op with
  | .eq => .ok (h.equal a b)
  | .ne => .ok (!h.equal a b)
  | op =>
    match a.number?, b.number? with
    | some x, some y => .ok (x.compare op y)
    | _, _ => .error (.typeMismatch op.symbol (h.typeName a) (h.typeName b))

/-- The cell of a list that an operation needs. -/
def listCell (h : Heap) (operation : String) : Value → Except RuntimeError Nat
  | .list cell => .ok cell
  | v => .error (.expectedList operation (h.typeName v))

/-- The number of elements of a list. -/
def length (h : Heap) (v : Value) : Except RuntimeError Nat :=
  (h.listCell Builtin.len.name v).map fun cell ↦ (h.elements cell).size

/-- The place that an index names in a list of the given length; a negative one counts from the
end. -/
def place (index : Int) (length : Nat) : Except RuntimeError Nat :=
  let position := if index < 0 then index + length else index
  if 0 ≤ position ∧ position < length then .ok position.toNat
  else .error (.indexOutOfRange index length)

/-- The place that a value names as an index; booleans are indices. -/
def placeOf (h : Heap) (index : Value) (length : Nat) : Except RuntimeError Nat :=
  match index with
  | .number (.int i) => place i.toInt length
  | .boolean b => place (if b then 1 else 0) length
  | v => .error (.expectedInteger (h.typeName v))

/-- The cell of a list and the place in it that an operation on an element needs. -/
def elementPlace (h : Heap) (operation : String) (list index : Value) :
    Except RuntimeError (Nat × Nat) := do
  let cell ← h.listCell operation list
  let position ← h.placeOf index (h.elements cell).size
  return (cell, position)

/-- The element of a list at an index. -/
def loadIndex (h : Heap) (list index : Value) : Except RuntimeError Value :=
  (h.elementPlace "index" list index).map fun (cell, position) ↦
    (h.elements cell)[position]?.getD .none

/-- Replaces the element of a list at an index. -/
def storeIndex (h : Heap) (list index value : Value) : Effect Unit :=
  match h.elementPlace "index assignment" list index with
  | .ok (cell, position) => (.ok (), h.setElement cell position value)
  | .error e => (.error e, h)

/-- The attribute of an instance. -/
def getAttribute (h : Heap) (v : Value) (name : String) : Except RuntimeError Value :=
  let found :=
    match v with
    | .object cell => (h.instance? cell).bind fun i ↦ i.attributes.get? name
    | _ => none
  match found with
  | some value => .ok value
  | none => .error (.unknownAttribute name (h.typeName v))

/-- Sets an attribute of an instance. -/
def setAttribute (h : Heap) (v : Value) (name : String) (value : Value) : Effect Unit :=
  match v with
  | .object cell => (.ok (), h.bindAttribute cell name value)
  | v => (.error (.unknownAttribute name (h.typeName v)), h)

/-- Calls a method of a list. -/
def callListMethod (h : Heap) (list : Value) (name : String) (args : List Value) :
    Effect Value :=
  match h.listCell name list with
  | .error e => (.error e, h)
  | .ok cell =>
    match ListMethod.ofName? name with
    | none => (.error (.unknownMethod name (h.typeName list)), h)
    | some .append =>
      match args with
      | [value] => (.ok .none, h.append cell value)
      | _ =>
        (.error (.arityMismatch ListMethod.append.name ListMethod.append.arity args.length), h)

/-- Calls a function that needs no definition. -/
def callBuiltin (h : Heap) (b : Builtin) (args : List Value) : Except RuntimeError Value :=
  match b, args with
  | .len, [v] => (h.length v).map .ofNat
  | b, args => .error (.arityMismatch b.name b.arity args.length)

end Offside.Heap
