import Offside.RuntimeError

/-!
What bounds a run, and what a run ends in.
-/

set_option autoImplicit false
set_option relaxedAutoImplicit false

namespace Offside

/-- The most steps that a run takes, and the most calls that are open at a time; no number is no
limit. -/
structure Limits where
  steps : Option Nat
  depth : Option Nat
  deriving DecidableEq

namespace Limits

def unlimited : Limits := ⟨none, none⟩

/-- Fails when the steps taken have reached their limit. -/
def admitStep (l : Limits) (taken : Nat) : Except RuntimeError Unit :=
  match l.steps with
  | some limit => if limit ≤ taken then .error (.stepLimitExceeded limit) else .ok ()
  | none => .ok ()

/-- Fails when the open calls have reached their limit. -/
def admitCall (l : Limits) (opened : Nat) : Except RuntimeError Unit :=
  match l.depth with
  | some limit => if limit ≤ opened then .error (.callDepthExceeded limit) else .ok ()
  | none => .ok ()

/-- Whether a routine can be entered: the number of arguments is that of its parameters, and one
more call may be opened. -/
def admitEntry (l : Limits) (name : String) (params : List String) (arguments opened : Nat) :
    Except RuntimeError Unit :=
  if params.length = arguments then l.admitCall opened
  else .error (.arityMismatch name params.length arguments)

section

variable {l : Limits} {e : RuntimeError} {name : String} {params : List String}
  {taken arguments opened : Nat}

theorem admitStep_eq_error (h : l.admitStep taken = .error e) :
    ∃ limit, e = .stepLimitExceeded limit := by
  unfold admitStep at h
  split at h
  · split at h <;> cases h
    exact ⟨_, rfl⟩
  · cases h

theorem admitCall_eq_error (h : l.admitCall opened = .error e) :
    ∃ limit, e = .callDepthExceeded limit := by
  unfold admitCall at h
  split at h
  · split at h <;> cases h
    exact ⟨_, rfl⟩
  · cases h

/-- An entry that is admitted has as many arguments as parameters. -/
theorem admitEntry_arity (h : l.admitEntry name params arguments opened = .ok ()) :
    params.length = arguments := by
  unfold admitEntry at h
  split at h
  · assumption
  · cases h

/-- An entry is refused for the number of arguments, or at the limit on open calls. -/
theorem admitEntry_eq_error (h : l.admitEntry name params arguments opened = .error e) :
    (params.length ≠ arguments ∧ e = .arityMismatch name params.length arguments) ∨
      (params.length = arguments ∧ ∃ limit, e = .callDepthExceeded limit) := by
  unfold admitEntry at h
  split at h
  · next heq => exact .inr ⟨heq, admitCall_eq_error h⟩
  · next hne =>
    cases h
    exact .inl ⟨hne, rfl⟩

end

end Limits

/-- What a run ends in: the lines it printed, and the error that ended it, if one did. -/
structure Answer where
  lines : List String
  error : Option RuntimeError
  deriving DecidableEq

namespace Answer

/-- The printed lines as one text. -/
def output (a : Answer) : String :=
  "\n".intercalate a.lines

end Answer

end Offside
