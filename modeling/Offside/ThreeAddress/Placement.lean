import Offside.ThreeAddress.Lower

/-!
From three-address form to stack code. Every operation becomes the loads of its operands, the
instruction that computes, and the store of its result; `width` says how many instructions that is.
A label takes no room and stands for the place of what follows it.
-/

set_option autoImplicit false
set_option relaxedAutoImplicit false

namespace Offside.ThreeAddress

/-- Why operations have no stack code. -/
inductive PlacementError
  | duplicateLabel (label : Nat)
  | undefinedLabel (label : Nat)
  deriving DecidableEq

namespace PlacementError

def message : PlacementError → String
  | .duplicateLabel label => "Label " ++ labelText label ++ " defined twice"
  | .undefinedLabel label => "Jump to undefined label " ++ labelText label

end PlacementError

/-- How many instructions an operation becomes. -/
def Op.width : Op → Nat
  | .label _ => 0
  | .jump _ => 1
  | .defineFunction _ => 1
  | .defineClass _ => 1
  | .constant _ _ => 2
  | .assign _ _ => 2
  | .print _ => 2
  | .jumpIfFalse _ _ => 2
  | .returnValue _ => 2
  | .loadAttribute _ _ _ => 3
  | .storeAttribute _ _ _ => 3
  | .arith _ _ _ _ => 4
  | .compare _ _ _ _ => 4
  | .loadIndex _ _ _ => 4
  | .storeIndex _ _ _ => 4
  | .buildList items _ => items.length + 2
  | .call _ args _ => args.length + 2
  | .callMethod _ _ args _ => args.length + 3

/-- How many instructions operations become. -/
def totalWidth : List Op → Nat
  | [] => 0
  | op :: ops => op.width + totalWidth ops

theorem totalWidth_append (ops more : List Op) :
    totalWidth (ops ++ more) = totalWidth ops + totalWidth more := by
  induction ops with
  | nil => simp [totalWidth]
  | cons op ops ih => simp [totalWidth, ih, Nat.add_assoc]

def Operand.load (operand : Operand) : Instr :=
  .loadVariable operand.slot

def storeResult (result : Nat) : Instr :=
  .storeVariable (slotOfTemporary result)

/-- The instructions of an operation, given the places of the labels. -/
def Op.code (place : Nat → Nat) : Op → List Instr
  | .constant value result => [.loadConstant value, storeResult result]
  | .assign source target => [source.load, .storeVariable target.slot]
  | .arith op left right result => [left.load, right.load, .arith op, storeResult result]
  | .compare op left right result => [left.load, right.load, .compare op, storeResult result]
  | .print value => [value.load, .print]
  | .label _ => []
  | .jump target => [.jump (place target)]
  | .jumpIfFalse condition target => [condition.load, .jumpIfFalse (place target)]
  | .buildList items result =>
    items.map Operand.load ++ [.buildList items.length, storeResult result]
  | .loadIndex list position result =>
    [.loadVariable list, position.load, .loadIndex, storeResult result]
  | .storeIndex list position value =>
    [.loadVariable list, position.load, value.load, .storeIndex]
  | .call name args result =>
    args.map Operand.load ++ [.callFunction name args.length, storeResult result]
  | .callMethod object method args result =>
    .loadVariable object :: args.map Operand.load ++
      [.callMethod method args.length, storeResult result]
  | .loadAttribute object name result =>
    [.loadVariable object, .loadAttribute name, storeResult result]
  | .storeAttribute object name value => [.loadVariable object, value.load, .storeAttribute name]
  | .defineFunction name => [.defineFunction name]
  | .defineClass name => [.defineClass name]
  | .returnValue none => returnNone
  | .returnValue (some value) => [value.load, .returnValue]

theorem Op.length_code (place : Nat → Nat) (op : Op) : (op.code place).length = op.width := by
  cases op with
  | returnValue value => cases value <;> rfl
  | _ => simp [Op.code, Op.width]

theorem length_flatMap_code (place : Nat → Nat) (ops : List Op) :
    (ops.flatMap (Op.code place)).length = totalWidth ops := by
  induction ops with
  | nil => rfl
  | cons op ops ih => rw [List.flatMap_cons, List.length_append, op.length_code, ih, totalWidth]

/-- The label that an operation defines. -/
def Op.defines? : Op → Option Nat
  | .label number => some number
  | _ => none

/-- The label that an operation jumps to. -/
def Op.jumpsTo? : Op → Option Nat
  | .jump target => some target
  | .jumpIfFalse _ target => some target
  | _ => none

/-- The labels that operations define, in order. -/
def definedLabels (ops : List Op) : List Nat :=
  ops.filterMap Op.defines?

/-- The first element that stands in a list before, too. -/
def firstRepeated? (seen : List Nat) : List Nat → Option Nat
  | [] => none
  | x :: xs => if x ∈ seen then some x else firstRepeated? (x :: seen) xs

/-- The place of a label: the width of all operations before its definition. -/
def placeOf (ops : List Op) (label : Nat) : Nat :=
  totalWidth (ops.takeWhile fun op ↦ op.defines? ≠ some label)

/-- The stack code of operations. A label that is defined twice is reported before a jump to a label
that is not defined at all, and of several such faults the first. -/
def assemble (ops : List Op) : Except PlacementError (List Instr) :=
  match firstRepeated? [] (definedLabels ops) with
  | some label => .error (.duplicateLabel label)
  | none =>
    match (ops.filterMap Op.jumpsTo?).find? fun label ↦ label ∉ definedLabels ops with
    | some label => .error (.undefinedLabel label)
    | none => .ok (ops.flatMap (Op.code (placeOf ops)))

/-- The executable of a three-address form. The bodies of its definitions are lowered directly,
functions before classes. -/
def Form.executable (f : Form) : Except PlacementError Executable := do
  let main ← assemble f.ops
  let g := f.functions.foldl Gathered.addFunction .initial
  let g := f.classes.foldl Gathered.addClass g
  return g.executable main

end Offside.ThreeAddress
