import Offside.ThreeAddress.Lower

/-!
The names of variables. A source text names its variables by words, which are plain; lowering adds
hidden variables of its own, whose names begin with `%`. So a hidden variable is never one of the
program, and hidden variables of different kinds or numbers are different.
-/

set_option autoImplicit false
set_option relaxedAutoImplicit false

namespace Offside

open ThreeAddress (slotOfTemporary)

/-- A name that a source text can give to a variable: it is not empty, and `%` does not begin it. -/
def Plain (name : String) : Prop :=
  ∃ c cs, name.toList = c :: cs ∧ c ≠ '%'

theorem Plain.ne_empty {name : String} (h : Plain name) : name ≠ "" := by
  obtain ⟨c, cs, hname, -⟩ := h
  rintro rfl
  cases hname

theorem toList_hidden (kind : String) (n : Nat) :
    (kind ++ toString n).toList = kind.toList ++ Nat.toDigits 10 n := by
  rw [String.toList_append, show toString n = n.repr from rfl, Nat.toList_repr]

/-- Hidden names of one kind are told apart by their numbers. -/
theorem hidden_inj {kind : String} {n k : Nat} (h : kind ++ toString n = kind ++ toString k) :
    n = k := by
  have hlists := congrArg String.toList h
  rw [toList_hidden, toList_hidden, List.append_cancel_left_eq] at hlists
  have hvalues := congrArg (fun digits ↦ Nat.ofDigitChars 10 digits 0) hlists
  simpa only [Nat.ofDigitChars_toDigits (by decide : 1 < 10) (by decide : 10 ≤ 10)] using hvalues

/-- Names whose second characters differ are different. -/
theorem ne_of_second_ne {a b : String} (h : a.toList[1]? ≠ b.toList[1]?) : a ≠ b :=
  fun heq ↦ h (by rw [heq])

theorem second_loopCounter (n : Nat) : (loopCounter n).toList[1]? = some 'f' := by
  rw [loopCounter, toList_hidden]
  rfl

theorem second_loopBound (n : Nat) : (loopBound n).toList[1]? = some 'e' := by
  rw [loopBound, toList_hidden]
  rfl

theorem second_slotOfTemporary (n : Nat) : (slotOfTemporary n).toList[1]? = some 't' := by
  rw [slotOfTemporary, toList_hidden]
  rfl

theorem loopCounter_ne_loopBound (n k : Nat) : loopCounter n ≠ loopBound k :=
  ne_of_second_ne (by simp [second_loopCounter, second_loopBound])

theorem loopCounter_ne_slotOfTemporary (n k : Nat) : loopCounter n ≠ slotOfTemporary k :=
  ne_of_second_ne (by simp [second_loopCounter, second_slotOfTemporary])

theorem loopBound_ne_slotOfTemporary (n k : Nat) : loopBound n ≠ slotOfTemporary k :=
  ne_of_second_ne (by simp [second_loopBound, second_slotOfTemporary])

/-- The hidden variables of temporaries and loops up to given numbers. -/
inductive HiddenBelow (temporaries loops : Nat) : String → Prop
  | temporary {n : Nat} (h : n ≤ temporaries) : HiddenBelow temporaries loops (slotOfTemporary n)
  | counter {n : Nat} (h : n ≤ loops) : HiddenBelow temporaries loops (loopCounter n)
  | bound {n : Nat} (h : n ≤ loops) : HiddenBelow temporaries loops (loopBound n)

namespace HiddenBelow

variable {temporaries loops : Nat} {name : String}

theorem mono {temporaries' loops' : Nat} (h : HiddenBelow temporaries loops name)
    (htemporaries : temporaries ≤ temporaries') (hloops : loops ≤ loops') :
    HiddenBelow temporaries' loops' name := by
  cases h with
  | temporary h => exact .temporary (Nat.le_trans h htemporaries)
  | counter h => exact .counter (Nat.le_trans h hloops)
  | bound h => exact .bound (Nat.le_trans h hloops)

theorem not_plain (h : HiddenBelow temporaries loops name) : ¬Plain name := by
  have hpercent {kind : String} {cs : List Char} {n : Nat} (hkind : kind.toList = '%' :: cs) :
      ¬Plain (kind ++ toString n) := by
    rintro ⟨c, rest, hname, hc⟩
    rw [toList_hidden, hkind, List.cons_append] at hname
    exact hc (List.cons.inj hname).1.symm
  cases h with
  | temporary _ => exact hpercent rfl
  | counter _ => exact hpercent rfl
  | bound _ => exact hpercent rfl

theorem ne_of_plain (h : HiddenBelow temporaries loops name) {other : String}
    (hother : Plain other) : other ≠ name := by
  rintro rfl
  exact h.not_plain hother

theorem ne_temporary (h : HiddenBelow temporaries loops name) {n : Nat} (hn : temporaries < n) :
    slotOfTemporary n ≠ name := by
  rintro rfl
  generalize hname : slotOfTemporary n = x at h
  cases h with
  | temporary h =>
    obtain rfl := hidden_inj hname
    omega
  | counter _ => exact loopCounter_ne_slotOfTemporary _ _ hname.symm
  | bound _ => exact loopBound_ne_slotOfTemporary _ _ hname.symm

theorem ne_counter (h : HiddenBelow temporaries loops name) {n : Nat} (hn : loops < n) :
    loopCounter n ≠ name := by
  rintro rfl
  generalize hname : loopCounter n = x at h
  cases h with
  | temporary _ => exact loopCounter_ne_slotOfTemporary _ _ hname
  | counter h =>
    obtain rfl := hidden_inj hname
    omega
  | bound _ => exact loopCounter_ne_loopBound _ _ hname

theorem ne_bound (h : HiddenBelow temporaries loops name) {n : Nat} (hn : loops < n) :
    loopBound n ≠ name := by
  rintro rfl
  generalize hname : loopBound n = x at h
  cases h with
  | temporary _ => exact loopBound_ne_slotOfTemporary _ _ hname
  | counter _ => exact loopCounter_ne_loopBound _ _ hname.symm
  | bound h =>
    obtain rfl := hidden_inj hname
    omega

end HiddenBelow

theorem not_plain_slotOfTemporary (n : Nat) : ¬Plain (slotOfTemporary n) :=
  (HiddenBelow.temporary (Nat.le_refl n) : HiddenBelow n 0 _).not_plain

theorem not_plain_loopCounter (n : Nat) : ¬Plain (loopCounter n) :=
  (HiddenBelow.counter (Nat.le_refl n) : HiddenBelow 0 n _).not_plain

theorem not_plain_loopBound (n : Nat) : ¬Plain (loopBound n) :=
  (HiddenBelow.bound (Nat.le_refl n) : HiddenBelow 0 n _).not_plain

/-! ### The names that a program binds -/

mutual

/-- All variables that a statement binds, its parameters and classes among them, have plain
names. -/
def Stmt.BindsPlainly : Stmt → Prop
  | .assign name _ => Plain name
  | .ifElse _ body orelse => BlockBindsPlainly body ∧ BlockBindsPlainly orelse
  | .whileLoop _ body => BlockBindsPlainly body
  | .forRange name _ _ body => Plain name ∧ BlockBindsPlainly body
  | .define routine => RoutineBindsPlainly routine
  | .defineClass definition => ClassBindsPlainly definition
  | _ => True

def BlockBindsPlainly : List Stmt → Prop
  | [] => True
  | s :: ss => s.BindsPlainly ∧ BlockBindsPlainly ss

def RoutineBindsPlainly : Routine (List Stmt) → Prop
  | ⟨_, params, body⟩ => (∀ x ∈ params, Plain x) ∧ BlockBindsPlainly body

def MethodsBindPlainly : List (Routine (List Stmt)) → Prop
  | [] => True
  | m :: ms => RoutineBindsPlainly m ∧ MethodsBindPlainly ms

def ClassBindsPlainly : Class (List Stmt) → Prop
  | ⟨name, methods⟩ => Plain name ∧ MethodsBindPlainly methods

end

theorem blockBindsPlainly_iff {block : Block} :
    BlockBindsPlainly block ↔ ∀ s ∈ block, s.BindsPlainly := by
  induction block with
  | nil => simp [BlockBindsPlainly]
  | cons s ss ih => simp [BlockBindsPlainly, ih]

theorem methodsBindPlainly_iff {methods : List (Routine Block)} :
    MethodsBindPlainly methods ↔ ∀ m ∈ methods, RoutineBindsPlainly m := by
  induction methods with
  | nil => simp [MethodsBindPlainly]
  | cons m ms ih => simp [MethodsBindPlainly, ih]

end Offside
