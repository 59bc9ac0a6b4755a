import Offside.Value.Operations
import Offside.Value.Text

/-!
Heaps whose instances keep no methods of their own. The machine keeps the methods of its class with
every instance, and the tree walk looks them up; `Heap.forget` drops them. No operation looks at
them, so every operation does the same on both heaps (the lemmas named `_forget`).
-/

set_option autoImplicit false
set_option relaxedAutoImplicit false

namespace Offside

/-- An instance without the methods it was made with. -/
def Instance.forget (i : Instance) : Instance :=
  { i with methods := .empty }

namespace Heap

/-- A heap whose instances have no methods. -/
def forget (h : Heap) : Heap :=
  { h with objects := h.objects.map Instance.forget }

/-- An operation that does the same whether instances have methods or not. -/
def Forgetful {α : Type} (operation : Heap → Effect α) : Prop :=
  ∀ h, operation h.forget = ((operation h).1, (operation h).2.forget)

variable (h : Heap)

@[simp]
theorem elements_forget (cell : Nat) : h.forget.elements cell = h.elements cell :=
  rfl

@[simp]
theorem instance?_forget (cell : Nat) :
    h.forget.instance? cell = (h.instance? cell).map Instance.forget := by
  simp only [instance?, forget, Array.getElem?_map]

@[simp]
theorem className_forget (cell : Nat) : h.forget.className cell = h.className cell := by
  rw [className, className, instance?_forget, Option.map_map]
  rfl

@[simp]
theorem typeName_forget (v : Value) : h.forget.typeName v = h.typeName v := by
  cases v with
  | number n => cases n <;> rfl
  | object cell => exact className_forget h cell
  | _ => rfl

@[simp]
theorem isTruthy_forget (v : Value) : h.forget.isTruthy v = h.isTruthy v := by
  cases v <;> rfl

theorem textWithin_forget (depth : Nat) :
    ∀ (opened : List Nat) (v : Value),
      h.forget.textWithin depth opened v = h.textWithin depth opened v := by
  induction depth with
  | zero =>
    intro opened v
    cases v with
    | boolean b => cases b <;> rfl
    | object cell => simp only [textWithin, className_forget]
    | _ => rfl
  | succ depth ih =>
    intro opened v
    cases v with
    | boolean b => cases b <;> rfl
    | object cell => simp only [textWithin, className_forget]
    | list cell =>
      have hih : h.forget.textWithin depth (cell :: opened) =
          h.textWithin depth (cell :: opened) := funext (ih (cell :: opened))
      simp only [textWithin, elements_forget, hih]
    | _ => rfl

@[simp]
theorem text_forget (v : Value) : h.forget.text v = h.text v :=
  textWithin_forget h _ [] v

theorem allEqual_forget (fresh : Nat) (compared : CellPairs) (pending : List (Value × Value)) :
    h.forget.allEqual fresh compared pending = h.allEqual fresh compared pending := by
  fun_induction h.allEqual fresh compared pending with
  | case1 => rw [allEqual]
  | case2 fresh compared i j pending hseen ih =>
    cases fresh <;> rw [allEqual, if_pos hseen, ih]
  | case3 compared i j pending hseen => rw [allEqual, if_neg hseen]
  | case4 compared i j pending hseen fresh left right ih =>
    rw [allEqual, if_neg hseen]
    simp only [elements_forget]
    rw [ih]
    rfl
  | case5 fresh compared a b pending hlists ih => rw [allEqual, ih]; exact hlists

@[simp]
theorem equal_forget (a b : Value) : h.forget.equal a b = h.equal a b :=
  allEqual_forget h _ _ _

@[simp]
theorem compare_forget (op : CompareOp) (a b : Value) :
    h.forget.compare op a b = h.compare op a b := by
  cases op <;> simp only [compare, equal_forget, typeName_forget]

@[simp]
theorem listCell_forget (operation : String) (v : Value) :
    h.forget.listCell operation v = h.listCell operation v := by
  cases v <;> simp only [listCell, typeName_forget]

@[simp]
theorem elementPlace_forget (operation : String) (list index : Value) :
    h.forget.elementPlace operation list index = h.elementPlace operation list index := by
  have hplace (length : Nat) : h.forget.placeOf index length = h.placeOf index length := by
    unfold placeOf
    split <;> simp only [typeName_forget]
  simp only [elementPlace, listCell_forget, elements_forget, hplace]

@[simp]
theorem loadIndex_forget (list index : Value) :
    h.forget.loadIndex list index = h.loadIndex list index := by
  simp only [loadIndex, elementPlace_forget, elements_forget]

@[simp]
theorem getAttribute_forget (v : Value) (name : String) :
    h.forget.getAttribute v name = h.getAttribute v name := by
  cases v with
  | object cell =>
    simp only [getAttribute, instance?_forget, typeName_forget, Option.bind_map]
    rfl
  | _ => simp only [getAttribute, typeName_forget]

@[simp]
theorem callBuiltin_forget (b : Builtin) (args : List Value) :
    h.forget.callBuiltin b args = h.callBuiltin b args := by
  unfold callBuiltin
  split <;> simp only [length, listCell_forget, elements_forget]

theorem forgetful_arith (op : ArithOp) (a b : Value) : Forgetful fun h ↦ h.arith op a b := by
  intro h
  unfold arith
  split
  · split <;> rfl
  · split
    · rfl
    · simp only [typeName_forget]

theorem forgetful_storeIndex (list index value : Value) :
    Forgetful fun h ↦ h.storeIndex list index value := by
  intro h
  simp only [storeIndex, elementPlace_forget]
  split <;> rfl

theorem forgetful_setAttribute (v : Value) (name : String) (value : Value) :
    Forgetful fun h ↦ h.setAttribute v name value := by
  intro h
  cases v with
  | object cell =>
    simp only [setAttribute, bindAttribute, forget, Prod.mk.injEq, Heap.mk.injEq, true_and]
    refine Array.ext_getElem? fun i ↦ ?_
    simp only [Array.getElem?_modify, Array.getElem?_map]
    split
    · rw [Option.map_map, Option.map_map]
      rfl
    · rfl
  | _ => simp only [setAttribute, typeName_forget]

theorem forgetful_callListMethod (list : Value) (name : String) (args : List Value) :
    Forgetful fun h ↦ h.callListMethod list name args := by
  intro h
  simp only [callListMethod, listCell_forget, typeName_forget]
  split
  · rfl
  · split
    · rfl
    · split <;> rfl

theorem forgetful_newList (values : Array Value) :
    Forgetful fun h ↦ (.ok (h.newList values).1, (h.newList values).2) :=
  fun _ ↦ rfl

/-- Making an instance is the one operation that is given methods. -/
theorem newObject_forget (className : String) (methods : Bindings (Routine Code)) :
    h.forget.newObject className .empty =
      ((h.newObject className methods).1, (h.newObject className methods).2.forget) := by
  simp only [newObject, forget, Array.size_map, Array.map_push]
  rfl

/-! ### What instances keep -/

/-- Every instance of the second heap is one of the first up to its attributes. -/
def KeepsInstances (h h' : Heap) : Prop :=
  ∀ cell i, h'.instance? cell = some i →
    ∃ j, h.instance? cell = some j ∧ i.className = j.className ∧ i.methods = j.methods

theorem keepsInstances_of_objects_eq {h h' : Heap} (hobjects : h'.objects = h.objects) :
    KeepsInstances h h' := by
  intro cell i hi
  rw [instance?, hobjects] at hi
  exact ⟨i, hi, rfl, rfl⟩

theorem keepsInstances_arith (op : ArithOp) (a b : Value) :
    KeepsInstances h (h.arith op a b).2 := by
  refine keepsInstances_of_objects_eq ?_
  unfold arith
  split
  · split <;> rfl
  · split <;> rfl

theorem keepsInstances_storeIndex (list index value : Value) :
    KeepsInstances h (h.storeIndex list index value).2 := by
  refine keepsInstances_of_objects_eq ?_
  unfold storeIndex
  split <;> rfl

theorem keepsInstances_callListMethod (list : Value) (name : String) (args : List Value) :
    KeepsInstances h (h.callListMethod list name args).2 := by
  refine keepsInstances_of_objects_eq ?_
  unfold callListMethod
  split
  · rfl
  · split
    · rfl
    · split <;> rfl

theorem keepsInstances_setAttribute (v : Value) (name : String) (value : Value) :
    KeepsInstances h (h.setAttribute v name value).2 := by
  cases v with
  | object cell =>
    intro other i hi
    rw [setAttribute, instance?_bindAttribute] at hi
    split at hi
    · next heq =>
      subst heq
      obtain ⟨j, hj, rfl⟩ := Option.map_eq_some_iff.mp hi
      exact ⟨j, hj, rfl, rfl⟩
    · exact ⟨i, hi, rfl, rfl⟩
  | _ => exact keepsInstances_of_objects_eq rfl

end Heap

end Offside
