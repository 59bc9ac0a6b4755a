import Offside.Value.Operations

/-!
Which errors operations on values end in. There is one lemma an operation, and it says that the
error is of the kind that values can cause. The two calls among the operations can also find a wrong
number of arguments, and in no other way than that. An operation that ends in an error has not
changed the heap (the lemmas named `_unchanged`).
-/

set_option autoImplicit false
set_option relaxedAutoImplicit false

namespace Offside

namespace RuntimeError

/-- The errors that are caused by the values an operation is given. -/
def IsValueError : RuntimeError → Prop
  | .divisionByZero => True
  | .integerOverflow => True
  | .typeMismatch _ _ _ => True
  | .expectedList _ _ => True
  | .expectedInteger _ => True
  | .indexOutOfRange _ _ => True
  | .unknownMethod _ _ => True
  | .unknownAttribute _ _ => True
  | _ => False

/-- The error of a call with a wrong number of arguments. -/
def IsArityMismatch : RuntimeError → Prop
  | .arityMismatch _ _ _ => True
  | _ => False

end RuntimeError

namespace Heap

variable {h h' : Heap} {e : RuntimeError}

theorem listCell_error {operation : String} {v : Value}
    (herror : h.listCell operation v = .error e) : e.IsValueError := by
  cases v with
  | list cell => cases herror
  | _ =>
    cases herror
    trivial

theorem arith_error {op : ArithOp} {a b : Value} (herror : h.arith op a b = (.error e, h')) :
    e.IsValueError := by
  unfold arith at herror
  split at herror
  · split at herror
    · cases herror
    · next cause _ =>
      cases herror
      cases cause <;> trivial
  · split at herror
    · cases herror
    · cases herror
      trivial

theorem compare_error {op : CompareOp} {a b : Value} (herror : h.compare op a b = .error e) :
    e.IsValueError := by
  unfold compare at herror
  split at herror
  · cases herror
  · cases herror
  · split at herror
    · cases herror
    · cases herror
      trivial

theorem place_error {i : Int} {n : Nat} (herror : place i n = .error e) : e.IsValueError := by
  unfold place at herror
  generalize (if i < 0 then i + (n : Int) else i) = position at herror
  dsimp only at herror
  split at herror
  · cases herror
  · cases herror
    trivial

theorem placeOf_error {index : Value} {n : Nat} (herror : h.placeOf index n = .error e) :
    e.IsValueError := by
  unfold placeOf at herror
  split at herror
  · exact place_error herror
  · exact place_error herror
  · cases herror
    trivial

theorem elementPlace_error {operation : String} {list index : Value}
    (herror : h.elementPlace operation list index = .error e) : e.IsValueError := by
  unfold elementPlace at herror
  cases hcell : h.listCell operation list with
  | error cause =>
    rw [hcell] at herror
    cases herror
    exact listCell_error hcell
  | ok cell =>
    rw [hcell] at herror
    cases hplace : h.placeOf index (h.elements cell).size with
    | error cause =>
      have hcause : (Except.error cause : Except RuntimeError Nat).map (cell, ·) = .error e := by
        rw [← hplace]
        exact herror
      cases hcause
      exact placeOf_error hplace
    | ok position =>
      have hresult : (Except.ok position : Except RuntimeError Nat).map (cell, ·) = .error e := by
        rw [← hplace]
        exact herror
      cases hresult

theorem loadIndex_error {list index : Value} (herror : h.loadIndex list index = .error e) :
    e.IsValueError := by
  unfold loadIndex at herror
  cases hplace : h.elementPlace "index" list index with
  | error cause =>
    rw [hplace] at herror
    cases herror
    exact elementPlace_error hplace
  | ok place =>
    rw [hplace] at herror
    cases herror

theorem storeIndex_error {list index value : Value}
    (herror : h.storeIndex list index value = (.error e, h')) : e.IsValueError := by
  unfold storeIndex at herror
  split at herror
  · cases herror
  · next hplace =>
    cases herror
    exact elementPlace_error hplace

theorem getAttribute_error {v : Value} {name : String}
    (herror : h.getAttribute v name = .error e) : e.IsValueError := by
  unfold getAttribute at herror
  dsimp only at herror
  split at herror
  · cases herror
  · cases herror
    trivial

theorem setAttribute_error {v value : Value} {name : String}
    (herror : h.setAttribute v name value = (.error e, h')) : e.IsValueError := by
  unfold setAttribute at herror
  split at herror
  · cases herror
  · cases herror
    trivial

/-- A method of a list, called with as many arguments as it takes. -/
theorem callListMethod_error_of_arity {list : Value} {name : String} {args : List Value}
    (hargs : ∀ m, ListMethod.ofName? name = some m → args.length = m.arity)
    (herror : h.callListMethod list name args = (.error e, h')) : e.IsValueError := by
  unfold callListMethod at herror
  split at herror
  · next hcell =>
    cases herror
    exact listCell_error hcell
  · split at herror
    · cases herror
      trivial
    · next hname =>
      obtain ⟨v, rfl⟩ := List.length_eq_one_iff.mp (hargs .append hname)
      cases herror

theorem callListMethod_of_arity_ne {cell : Nat} {name : String} {m : ListMethod}
    {args : List Value} (hname : ListMethod.ofName? name = some m)
    (hargs : args.length ≠ m.arity) :
    h.callListMethod (.list cell) name args =
      (.error (.arityMismatch m.name m.arity args.length), h) := by
  cases m
  simp only [callListMethod, listCell, hname]
  split
  · exact absurd rfl hargs
  · rfl

theorem callListMethod_error {list : Value} {name : String} {args : List Value}
    (herror : h.callListMethod list name args = (.error e, h')) :
    e.IsValueError ∨ e.IsArityMismatch := by
  by_cases hargs : ∀ m, ListMethod.ofName? name = some m → args.length = m.arity
  · exact .inl (callListMethod_error_of_arity hargs herror)
  · obtain ⟨m, hm⟩ := Classical.not_forall.mp hargs
    obtain ⟨hname, hne⟩ := Classical.not_imp.mp hm
    cases list with
    | list cell =>
      rw [callListMethod_of_arity_ne hname hne] at herror
      cases herror
      exact .inr trivial
    | _ =>
      cases herror
      exact .inl trivial

/-- A function that needs no definition, called with as many arguments as it takes. -/
theorem callBuiltin_error {b : Builtin} {args : List Value} (hargs : args.length = b.arity)
    (herror : h.callBuiltin b args = .error e) : e.IsValueError := by
  cases b with
  | len =>
    obtain ⟨v, rfl⟩ := List.length_eq_one_iff.mp hargs
    simp only [callBuiltin, length] at herror
    cases hcell : h.listCell Builtin.len.name v with
    | error cause =>
      rw [hcell] at herror
      cases herror
      exact listCell_error hcell
    | ok cell =>
      rw [hcell] at herror
      cases herror

theorem callBuiltin_of_arity_ne {b : Builtin} {args : List Value}
    (hargs : args.length ≠ b.arity) :
    h.callBuiltin b args = .error (.arityMismatch b.name b.arity args.length) := by
  unfold callBuiltin
  split
  · exact absurd rfl hargs
  · rfl

/-! ### Behind an error -/

theorem arith_unchanged {op : ArithOp} {a b : Value} (herror : h.arith op a b = (.error e, h')) :
    h' = h := by
  unfold arith at herror
  split at herror
  · split at herror <;> cases herror
    rfl
  · split at herror <;> cases herror
    rfl

theorem storeIndex_unchanged {list index value : Value}
    (herror : h.storeIndex list index value = (.error e, h')) : h' = h := by
  unfold storeIndex at herror
  split at herror <;> cases herror
  rfl

theorem setAttribute_unchanged {v value : Value} {name : String}
    (herror : h.setAttribute v name value = (.error e, h')) : h' = h := by
  unfold setAttribute at herror
  split at herror <;> cases herror
  rfl

theorem callListMethod_unchanged {list : Value} {name : String} {args : List Value}
    (herror : h.callListMethod list name args = (.error e, h')) : h' = h := by
  unfold callListMethod at herror
  split at herror
  · cases herror
    rfl
  · split at herror
    · cases herror
      rfl
    · split at herror <;> cases herror
      rfl

end Heap

end Offside
