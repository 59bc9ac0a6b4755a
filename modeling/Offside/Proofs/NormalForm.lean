import Offside.Simplify

/-!
The normal form of programs. In a normal program every operation on two number literals is one that
fails, no conditional tests a literal, and in the body of a routine nothing stands behind a `return`
of the same block; loops, and returns outside of routines, are as they may be. Simplifying gives a
normal program, and the programs that it leaves as they are are the normal ones
(`simplify_normalizes`). Programs are compared as trees, and the literals in them by representation.
-/

set_option autoImplicit false
set_option relaxedAutoImplicit false

namespace Offside

/-! ### Normal programs -/

/-- An operation on two number literals that has a result. -/
def Expr.Foldable : Expr → Prop
  | .arith op (.number a) (.number b) => ∃ c, a.apply op b = .ok c
  | _ => False

/-- A number or a truth value as it is written. -/
def Expr.IsLiteral : Expr → Prop
  | .number _ => True
  | .boolean _ => True
  | _ => False

mutual

/-- No part of the expression can be folded. -/
def Expr.Folded : Expr → Prop
  | .number _ => True
  | .boolean _ => True
  | .variable _ => True
  | .arith op left right => ¬(Expr.arith op left right).Foldable ∧ left.Folded ∧ right.Folded
  | .compare _ left right => left.Folded ∧ right.Folded
  | .call _ args => ExprsFolded args
  | .list items => ExprsFolded items
  | .index _ position => position.Folded
  | .member _ _ => True
  | .methodCall _ _ args => ExprsFolded args

def ExprsFolded : List Expr → Prop
  | [] => True
  | e :: es => e.Folded ∧ ExprsFolded es

end

mutual

/-- A normal statement, inside of a routine or outside of all. -/
def Stmt.Normal (inRoutine : Bool) : Stmt → Prop
  | .assign _ value => value.Folded
  | .assignIndex _ position value => position.Folded ∧ value.Folded
  | .assignAttribute _ _ value => value.Folded
  | .print value => value.Folded
  | .ifElse condition body orelse =>
    (condition.Folded ∧ ¬condition.IsLiteral) ∧ BlockNormal inRoutine body ∧
      BlockNormal inRoutine orelse
  | .whileLoop condition body => condition.Folded ∧ BlockNormal inRoutine body
  | .forRange _ start stop body => start.Folded ∧ stop.Folded ∧ BlockNormal inRoutine body
  | .define routine => RoutineNormal routine
  | .defineClass definition => ClassNormal definition
  | .return none => True
  | .return (some value) => value.Folded
  | .expr value => value.Folded
  | .pass => True

/-- A block of normal statements, in which nothing stands behind a `return` inside of a routine. -/
def BlockNormal (inRoutine : Bool) : List Stmt → Prop
  | [] => True
  | s :: ss =>
    s.Normal inRoutine ∧ (inRoutine = true → s.isReturn = true → ss = []) ∧
      BlockNormal inRoutine ss

def RoutineNormal : Routine (List Stmt) → Prop
  | ⟨_, _, body⟩ => BlockNormal true body

def MethodsNormal : List (Routine (List Stmt)) → Prop
  | [] => True
  | m :: ms => RoutineNormal m ∧ MethodsNormal ms

def ClassNormal : Class (List Stmt) → Prop
  | ⟨_, methods⟩ => MethodsNormal methods

end

/-- A normal program. -/
def Normal (program : Block) : Prop :=
  BlockNormal false program

/-! ### Expressions -/

section

variable {op : ArithOp} {left right : Expr}

/-- What can be folded is. -/
theorem folded_foldArith (hleft : left.Folded) (hright : right.Folded) :
    (foldArith op left right).Folded := by
  unfold foldArith
  split
  · next a b =>
    cases happly : a.apply op b with
    | ok c => exact trivial
    | error cause =>
      refine ⟨?_, trivial, trivial⟩
      rintro ⟨c, hc⟩
      rw [happly] at hc
      cases hc
  · next hne =>
    refine ⟨?_, hleft, hright⟩
    intro hfoldable
    unfold Expr.Foldable at hfoldable
    split at hfoldable
    · next heq =>
      cases heq
      exact hne _ _ rfl rfl
    · exact hfoldable

/-- What cannot be folded stays. -/
theorem foldArith_of_not_foldable (h : ¬(Expr.arith op left right).Foldable) :
    foldArith op left right = .arith op left right := by
  unfold foldArith
  split
  · next a b =>
    cases happly : a.apply op b with
    | ok c => exact absurd ⟨c, happly⟩ h
    | error cause => rfl
  · rfl

end

mutual

theorem Expr.folded_simplify : ∀ e : Expr, e.simplify.Folded
  | .number _ => trivial
  | .boolean _ => trivial
  | .variable _ => trivial
  | .arith _ left right => folded_foldArith left.folded_simplify right.folded_simplify
  | .compare _ left right => ⟨left.folded_simplify, right.folded_simplify⟩
  | .call _ args => exprsFolded_simplify args
  | .list items => exprsFolded_simplify items
  | .index _ position => position.folded_simplify
  | .member _ _ => trivial
  | .methodCall _ _ args => exprsFolded_simplify args

theorem exprsFolded_simplify : ∀ es : List Expr, ExprsFolded (simplifyExprs es)
  | [] => trivial
  | e :: es => ⟨e.folded_simplify, exprsFolded_simplify es⟩

end

mutual

theorem Expr.Folded.simplify_eq : ∀ {e : Expr}, e.Folded → e.simplify = e
  | .number _, _ => rfl
  | .boolean _, _ => rfl
  | .variable _, _ => rfl
  | .arith op left right, h => by
    rw [Expr.simplify, h.2.1.simplify_eq, h.2.2.simplify_eq, foldArith_of_not_foldable h.1]
  | .compare _ _ _, h => by rw [Expr.simplify, h.1.simplify_eq, h.2.simplify_eq]
  | .call _ _, h => by rw [Expr.simplify, ExprsFolded.simplify_eq h]
  | .list _, h => by rw [Expr.simplify, ExprsFolded.simplify_eq h]
  | .index _ position, h => by
    have hposition : position.Folded := h
    rw [Expr.simplify, hposition.simplify_eq]
  | .member _ _, _ => rfl
  | .methodCall _ _ _, h => by rw [Expr.simplify, ExprsFolded.simplify_eq h]

theorem ExprsFolded.simplify_eq : ∀ {es : List Expr}, ExprsFolded es → simplifyExprs es = es
  | [], _ => rfl
  | _ :: _, h => by rw [simplifyExprs, h.1.simplify_eq, ExprsFolded.simplify_eq h.2]

end

/-! ### Statements and blocks -/

theorem literalTruth?_eq_none {e : Expr} : e.literalTruth? = none ↔ ¬e.IsLiteral := by
  cases e <;> simp [Expr.literalTruth?, Expr.IsLiteral]

/-- A block goes on behind another one if that does not end in a `return`. As it is normal, there is
no `return` in it then. -/
theorem blockNormal_append {inRoutine : Bool} {first rest : List Stmt}
    (hfirst : BlockNormal inRoutine first) (hrest : BlockNormal inRoutine rest)
    (hends : inRoutine = true → endsInReturn first = false) :
    BlockNormal inRoutine (first ++ rest) := by
  induction first with
  | nil => exact hrest
  | cons s ss ih =>
    obtain ⟨hs, hlast, hss⟩ := hfirst
    refine ⟨hs, fun hroutine hreturn ↦ ?_, ih hss fun hroutine ↦ ?_⟩
    · obtain rfl := hlast hroutine hreturn
      have hends := hends hroutine
      simp [endsInReturn, hreturn] at hends
    · cases ss with
      | nil => rfl
      | cons t ts => exact hends hroutine

mutual

theorem Stmt.normal_simplify (inRoutine : Bool) :
    ∀ s : Stmt, BlockNormal inRoutine (s.simplify inRoutine)
  | .assign _ value => ⟨value.folded_simplify, nofun, trivial⟩
  | .assignIndex _ position value =>
    ⟨⟨position.folded_simplify, value.folded_simplify⟩, nofun, trivial⟩
  | .assignAttribute _ _ value => ⟨value.folded_simplify, nofun, trivial⟩
  | .print value => ⟨value.folded_simplify, nofun, trivial⟩
  | .ifElse condition body orelse => by
    have hbody := blockNormal_simplify inRoutine body
    have horelse := blockNormal_simplify inRoutine orelse
    rw [Stmt.simplify]
    split
    · exact hbody
    · exact horelse
    · next hundecided =>
      have hcondition := literalTruth?_eq_none.mp hundecided
      exact ⟨⟨⟨condition.folded_simplify, hcondition⟩, hbody, horelse⟩, nofun, trivial⟩
  | .whileLoop condition body =>
    ⟨⟨condition.folded_simplify, blockNormal_simplify inRoutine body⟩, nofun, trivial⟩
  | .forRange _ start stop body =>
    ⟨⟨start.folded_simplify, stop.folded_simplify, blockNormal_simplify inRoutine body⟩, nofun,
      trivial⟩
  | .define routine => ⟨routineNormal_simplify routine, nofun, trivial⟩
  | .defineClass definition => ⟨classNormal_simplify definition, nofun, trivial⟩
  | .return none => ⟨trivial, fun _ _ ↦ rfl, trivial⟩
  | .return (some value) => ⟨value.folded_simplify, fun _ _ ↦ rfl, trivial⟩
  | .expr value => ⟨value.folded_simplify, nofun, trivial⟩
  | .pass => ⟨trivial, nofun, trivial⟩

theorem blockNormal_simplify (inRoutine : Bool) :
    ∀ block : List Stmt, BlockNormal inRoutine (simplifyBlock inRoutine block)
  | [] => trivial
  | s :: ss => by
    have hfirst := s.normal_simplify inRoutine
    have hrest := blockNormal_simplify inRoutine ss
    rw [simplifyBlock]
    by_cases hends : (inRoutine && endsInReturn (s.simplify inRoutine)) = true
    · rw [if_pos hends]
      exact hfirst
    · rw [if_neg hends]
      refine blockNormal_append hfirst hrest fun hroutine ↦ ?_
      simpa [hroutine] using hends

theorem routineNormal_simplify : ∀ r : Routine (List Stmt), RoutineNormal (simplifyRoutine r)
  | ⟨_, _, body⟩ => blockNormal_simplify true body

theorem methodsNormal_simplify :
    ∀ ms : List (Routine (List Stmt)), MethodsNormal (simplifyMethods ms)
  | [] => trivial
  | m :: ms => ⟨routineNormal_simplify m, methodsNormal_simplify ms⟩

theorem classNormal_simplify : ∀ c : Class (List Stmt), ClassNormal (simplifyClass c)
  | ⟨_, methods⟩ => methodsNormal_simplify methods

end

/-! ### Fixed programs -/

mutual

theorem Stmt.Normal.simplify_eq {inRoutine : Bool} :
    ∀ {s : Stmt}, s.Normal inRoutine → s.simplify inRoutine = [s]
  | .assign _ _, h => by rw [Stmt.simplify, Expr.Folded.simplify_eq h]
  | .assignIndex _ _ _, h => by rw [Stmt.simplify, h.1.simplify_eq, h.2.simplify_eq]
  | .assignAttribute _ _ _, h => by rw [Stmt.simplify, Expr.Folded.simplify_eq h]
  | .print _, h => by rw [Stmt.simplify, Expr.Folded.simplify_eq h]
  | .ifElse _ _ _, h => by
    rw [Stmt.simplify, h.1.1.simplify_eq, literalTruth?_eq_none.mpr h.1.2,
      BlockNormal.simplify_eq h.2.1, BlockNormal.simplify_eq h.2.2]
  | .whileLoop _ _, h => by
    rw [Stmt.simplify, h.1.simplify_eq, BlockNormal.simplify_eq h.2]
  | .forRange _ _ _ _, h => by
    rw [Stmt.simplify, h.1.simplify_eq, h.2.1.simplify_eq, BlockNormal.simplify_eq h.2.2]
  | .define _, h => by rw [Stmt.simplify, RoutineNormal.simplify_eq h]
  | .defineClass _, h => by rw [Stmt.simplify, ClassNormal.simplify_eq h]
  | .return none, _ => rfl
  | .return (some _), h => by rw [Stmt.simplify, Expr.Folded.simplify_eq h]
  | .expr _, h => by rw [Stmt.simplify, Expr.Folded.simplify_eq h]
  | .pass, _ => rfl

theorem BlockNormal.simplify_eq {inRoutine : Bool} :
    ∀ {block : List Stmt}, BlockNormal inRoutine block → simplifyBlock inRoutine block = block
  | [], _ => rfl
  | s :: ss, h => by
    obtain ⟨hs, hlast, hss⟩ := h
    rw [simplifyBlock, hs.simplify_eq, BlockNormal.simplify_eq hss]
    by_cases hends : (inRoutine && endsInReturn [s]) = true
    · obtain ⟨hroutine, hreturn⟩ := Bool.and_eq_true_iff.mp hends
      obtain rfl := hlast hroutine hreturn
      exact if_pos hends
    · exact if_neg hends

theorem RoutineNormal.simplify_eq :
    ∀ {r : Routine (List Stmt)}, RoutineNormal r → simplifyRoutine r = r
  | ⟨_, _, _⟩, h => by rw [simplifyRoutine, BlockNormal.simplify_eq h]

theorem MethodsNormal.simplify_eq :
    ∀ {ms : List (Routine (List Stmt))}, MethodsNormal ms → simplifyMethods ms = ms
  | [], _ => rfl
  | _ :: _, h => by
    rw [simplifyMethods, RoutineNormal.simplify_eq h.1, MethodsNormal.simplify_eq h.2]

theorem ClassNormal.simplify_eq :
    ∀ {c : Class (List Stmt)}, ClassNormal c → simplifyClass c = c
  | ⟨_, _⟩, h => by rw [simplifyClass, MethodsNormal.simplify_eq h]

end

theorem normal_simplify (program : Block) : Normal (simplify program) :=
  blockNormal_simplify false program

theorem Normal.simplify_eq {program : Block} (h : Normal program) : simplify program = program :=
  BlockNormal.simplify_eq h

/-- Simplifying gives normal programs, it leaves a program as it is exactly if that is normal, and
so it changes nothing more the second time. -/
theorem simplify_normalizes :
    (∀ program, Normal (simplify program)) ∧
      (∀ program, simplify program = program ↔ Normal program) ∧
      ∀ program, simplify (simplify program) = simplify program := by
  refine ⟨normal_simplify, fun program ↦ ⟨fun h ↦ ?_, Normal.simplify_eq⟩, fun program ↦ ?_⟩
  · rw [← h]
    exact normal_simplify program
  · exact (normal_simplify program).simplify_eq

end Offside
