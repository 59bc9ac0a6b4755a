import Offside.Run

/-!
Limits compared by how much they admit. What narrower limits admit is admitted under wider ones, and
what they refuse they refuse with a number of their own.
-/

set_option autoImplicit false
set_option relaxedAutoImplicit false

namespace Offside.Limits

/-- A limit that is at most another one, where no number is no limit. -/
def Narrower : Option Nat → Option Nat → Prop
  | _, none => True
  | none, some _ => False
  | some n, some k => n ≤ k

/-- Limits are compared one by one. -/
instance : LE Limits where
  le l l' := Narrower l.steps l'.steps ∧ Narrower l.depth l'.depth

/-- The errors of runs that meet one of the limits. -/
inductive Exceeded (l : Limits) : RuntimeError → Prop
  | steps {n : Nat} (h : l.steps = some n) : Exceeded l (.stepLimitExceeded n)
  | depth {n : Nat} (h : l.depth = some n) : Exceeded l (.callDepthExceeded n)

section

variable {l l' : Limits} {e : RuntimeError} {taken opened : Nat}

theorem Narrower.lt {limit limit' : Option Nat} {used : Nat} (h : Narrower limit limit')
    (hlimit : ∀ n, limit = some n → used < n) : ∀ n, limit' = some n → used < n := by
  rintro k rfl
  cases limit with
  | none => exact h.elim
  | some n => exact Nat.lt_of_lt_of_le (hlimit n rfl) h

theorem admitStep_eq_ok : l.admitStep taken = .ok () ↔ ∀ n, l.steps = some n → taken < n := by
  unfold admitStep
  cases l.steps <;> simp

theorem admitCall_eq_ok : l.admitCall opened = .ok () ↔ ∀ n, l.depth = some n → opened < n := by
  unfold admitCall
  cases l.depth <;> simp

theorem admitStep_of_le (hle : l ≤ l') (h : l.admitStep taken = .ok ()) :
    l'.admitStep taken = .ok () :=
  admitStep_eq_ok.mpr (hle.1.lt (admitStep_eq_ok.mp h))

theorem admitCall_of_le (hle : l ≤ l') (h : l.admitCall opened = .ok ()) :
    l'.admitCall opened = .ok () :=
  admitCall_eq_ok.mpr (hle.2.lt (admitCall_eq_ok.mp h))

theorem exceeded_of_admitStep (h : l.admitStep taken = .error e) : l.Exceeded e := by
  unfold admitStep at h
  split at h
  · next n hn =>
    split at h <;> cases h
    exact .steps hn
  · cases h

theorem exceeded_of_admitCall (h : l.admitCall opened = .error e) : l.Exceeded e := by
  unfold admitCall at h
  split at h
  · next n hn =>
    split at h <;> cases h
    exact .depth hn
  · cases h

end

end Offside.Limits
