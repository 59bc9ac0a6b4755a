import Offside.Code
import Offside.RuntimeError

/-!
Values and the heap. Lists and instances are cells of the heap; a value refers to its cell, so that
a change through one reference is seen through every other. Cells are added and changed, and never
removed.
-/

set_option autoImplicit false
set_option relaxedAutoImplicit false

namespace Offside

/-- A value at run time. -/
inductive Value
  | number (value : Number)
  | boolean (value : Bool)
  | list (cell : Nat)
  | object (cell : Nat)
  | none
  deriving DecidableEq

/-- An instance of a class, with the methods it was made with and the attributes it has now. -/
structure Instance where
  className : String
  methods : Bindings (Routine Code)
  attributes : Bindings Value

/-- The cells that values refer to. -/
structure Heap where
  lists : Array (Array Value)
  objects : Array Instance

namespace Value

def ofConstant : Constant → Value
  | .number n => .number n
  | .boolean b => .boolean b
  | .none => .none

def ofNat (n : Nat) : Value :=
  .number (.int (.ofNat n))

/-- The number that a value stands for; booleans stand for zero and one. -/
def number? : Value → Option Number
  | .number n => some n
  | .boolean b => some (.int (if b then 1 else 0))
  | _ => Option.none

end Value

namespace Heap

def empty : Heap := ⟨#[], #[]⟩

/-- The elements of a list. -/
def elements (h : Heap) (cell : Nat) : Array Value :=
  h.lists[cell]?.getD #[]

/-- The instance in a cell. -/
def instance? (h : Heap) (cell : Nat) : Option Instance :=
  h.objects[cell]?

/-- The class of an instance. -/
def className (h : Heap) (cell : Nat) : String :=
  ((h.instance? cell).map Instance.className).getD ""

/-- A new list. -/
def newList (h : Heap) (values : Array Value) : Value × Heap :=
  (.list h.lists.size, { h with lists := h.lists.push values })

/-- A new instance without attributes. -/
def newObject (h : Heap) (className : String) (methods : Bindings (Routine Code)) : Value × Heap :=
  (.object h.objects.size, { h with objects := h.objects.push ⟨className, methods, .empty⟩ })

/-- Replaces the element at a place of a list. -/
def setElement (h : Heap) (cell position : Nat) (value : Value) : Heap :=
  { h with lists := h.lists.modify cell fun vs ↦ vs.setIfInBounds position value }

/-- Adds an element at the end of a list. -/
def append (h : Heap) (cell : Nat) (value : Value) : Heap :=
  { h with lists := h.lists.modify cell fun vs ↦ vs.push value }

/-- Binds an attribute of an instance. -/
def bindAttribute (h : Heap) (cell : Nat) (name : String) (value : Value) : Heap :=
  { h with
    objects := h.objects.modify cell fun i ↦ { i with attributes := i.attributes.set name value } }

/-! ### What is seen of a heap behind an operation -/

theorem elements_newList (h : Heap) (values : Array Value) (cell : Nat) :
    (h.newList values).2.elements cell =
      if cell = h.lists.size then values else h.elements cell := by
  simp only [newList, elements, Array.getElem?_push]
  split <;> rfl

theorem instance?_newObject (h : Heap) (className : String) (methods : Bindings (Routine Code))
    (cell : Nat) :
    (h.newObject className methods).2.instance? cell =
      if cell = h.objects.size then some ⟨className, methods, .empty⟩ else h.instance? cell := by
  simp only [newObject, instance?, Array.getElem?_push]

theorem elements_setElement (h : Heap) (cell position other : Nat) (value : Value) :
    (h.setElement cell position value).elements other =
      if cell = other then (h.elements cell).setIfInBounds position value
      else h.elements other := by
  simp only [setElement, elements, Array.getElem?_modify]
  by_cases hc : cell = other
  · subst hc
    cases h.lists[cell]? <;> simp
  · simp [hc]

theorem elements_append {h : Heap} {cell : Nat} (hcell : cell < h.lists.size) (other : Nat)
    (value : Value) :
    (h.append cell value).elements other =
      if cell = other then (h.elements cell).push value else h.elements other := by
  simp only [append, elements, Array.getElem?_modify]
  by_cases hc : cell = other
  · subst hc
    simp [hcell]
  · simp [hc]

theorem instance?_bindAttribute (h : Heap) (cell other : Nat) (name : String) (value : Value) :
    (h.bindAttribute cell name value).instance? other =
      if cell = other then
        (h.instance? cell).map fun i ↦ { i with attributes := i.attributes.set name value }
      else h.instance? other := by
  simp only [bindAttribute, instance?, Array.getElem?_modify]
  by_cases hc : cell = other
  · subst hc
    simp
  · simp [hc]

/-! ### What values are -/

/-- The name of a value's type; that of an instance is its class. -/
def typeName (h : Heap) : Value → String
  | .number (.int _) => "int"
  | .number (.float _) => "float"
  | .boolean _ => "bool"
  | .list _ => "list"
  | .object cell => h.className cell
  | .none => "NoneType"

/-- Whether a value counts as true: all do but zero, false, the empty list and none. -/
def isTruthy (h : Heap) : Value → Bool
  | .number n => n.isTruthy
  | .boolean b => b
  | .list cell => !(h.elements cell).isEmpty
  | .object _ => true
  | .none => false

end Heap

end Offside
