import Offside.Proofs.Value.Errors
import Offside.Run

/-!
Operations on values and limits raise no scope error. The errors that the scope check is there to
rule out come from looking up a variable and from a `return`, and from nothing else.
-/

set_option autoImplicit false
set_option relaxedAutoImplicit false

namespace Offside

namespace RuntimeError

/-- The errors that the scope check is there to rule out. -/
def IsScopeError : RuntimeError → Prop
  | .undefinedVariable _ => True
  | .returnOutsideFunction => True
  | _ => False

variable {e : RuntimeError}

theorem IsValueError.not_scopeError (h : e.IsValueError) : ¬e.IsScopeError := by
  cases e <;> first | exact id | exact h.elim

theorem IsArityMismatch.not_scopeError (h : e.IsArityMismatch) : ¬e.IsScopeError := by
  cases e <;> first | exact id | exact h.elim

end RuntimeError

namespace Heap

variable {h h' : Heap} {e : RuntimeError}

theorem callBuiltin_not_scopeError {b : Builtin} {args : List Value}
    (herror : h.callBuiltin b args = .error e) : ¬e.IsScopeError := by
  by_cases harity : args.length = b.arity
  · exact (callBuiltin_error harity herror).not_scopeError
  · rw [callBuiltin_of_arity_ne harity] at herror
    cases herror
    exact id

theorem callListMethod_not_scopeError {list : Value} {name : String} {args : List Value}
    (herror : h.callListMethod list name args = (.error e, h')) : ¬e.IsScopeError :=
  (callListMethod_error herror).elim (·.not_scopeError) (·.not_scopeError)

end Heap

namespace Limits

variable {l : Limits} {e : RuntimeError}

theorem admitStep_error {taken : Nat} (herror : l.admitStep taken = .error e) :
    ¬e.IsScopeError := by
  obtain ⟨limit, rfl⟩ := admitStep_eq_error herror
  exact id

theorem admitEntry_error {name : String} {params : List String} {arguments opened : Nat}
    (herror : l.admitEntry name params arguments opened = .error e) : ¬e.IsScopeError := by
  obtain ⟨-, rfl⟩ | ⟨-, limit, rfl⟩ := admitEntry_eq_error herror
  · exact id
  · exact id

end Limits

end Offside
