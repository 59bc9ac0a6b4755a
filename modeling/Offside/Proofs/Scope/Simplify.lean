import Offside.Proofs.Scope.Scoped
import Offside.Simplify

/-!
Simplifying keeps programs well formed. A branch that takes the place of its conditional binds its
variables for what follows, too, which larger scopes allow; and what is defined behind simplifying
was defined before it under the same name.
-/

set_option autoImplicit false
set_option relaxedAutoImplicit false

namespace Offside

open ThreeAddress (definitions definitionsOfStmt)

@[simp]
theorem simplifyRoutine_name (r : Routine Block) : (simplifyRoutine r).name = r.name := by
  obtain ⟨name, params, body⟩ := r
  rfl

@[simp]
theorem simplifyRoutine_params (r : Routine Block) : (simplifyRoutine r).params = r.params := by
  obtain ⟨name, params, body⟩ := r
  rfl

@[simp]
theorem simplifyRoutine_body (r : Routine Block) :
    (simplifyRoutine r).body = simplifyBlock true r.body := by
  obtain ⟨name, params, body⟩ := r
  rfl

theorem simplifyMethods_eq (ms : List (Routine Block)) :
    simplifyMethods ms = ms.map simplifyRoutine := by
  induction ms with
  | nil => rfl
  | cons m ms ih => rw [simplifyMethods, ih, List.map_cons]

@[simp]
theorem simplifyClass_name (c : Class Block) : (simplifyClass c).name = c.name := by
  obtain ⟨name, methods⟩ := c
  rfl

theorem simplifyClass_methods (c : Class Block) :
    (simplifyClass c).methods = c.methods.map simplifyRoutine := by
  obtain ⟨name, methods⟩ := c
  exact simplifyMethods_eq methods

theorem Apart.map {α : Type} {name : α → String} {f : α → α} {xs ys : List α}
    (h : Apart name xs) (hname : ∀ a, name (f a) = name a) (hys : ys ⊆ xs.map f) :
    Apart name ys := by
  intro a ha b hb hab
  obtain ⟨a', ha', rfl⟩ := List.mem_map.mp (hys ha)
  obtain ⟨b', hb', rfl⟩ := List.mem_map.mp (hys hb)
  rw [hname, hname] at hab
  rw [h a' ha' b' hb' hab]

/-! ### Variables -/

variable {P : String → Prop}

theorem reads_foldArith {op : ArithOp} {left right : Expr} (hleft : left.Reads P)
    (hright : right.Reads P) : (foldArith op left right).Reads P := by
  unfold foldArith
  split
  · split
    · trivial
    · exact ⟨trivial, trivial⟩
  · exact ⟨hleft, hright⟩

mutual

theorem Expr.Reads.simplify : ∀ {e : Expr}, e.Reads P → e.simplify.Reads P
  | .number _, h => h
  | .boolean _, h => h
  | .variable _, h => h
  | .arith _ _ _, h => reads_foldArith (Expr.Reads.simplify h.1) (Expr.Reads.simplify h.2)
  | .compare _ _ _, h => ⟨Expr.Reads.simplify h.1, Expr.Reads.simplify h.2⟩
  | .call _ _, h => exprsRead_simplify h
  | .list _, h => exprsRead_simplify h
  | .index _ _, h => ⟨h.1, Expr.Reads.simplify h.2⟩
  | .member _ _, h => h
  | .methodCall _ _ _, h => ⟨h.1, exprsRead_simplify h.2⟩

theorem exprsRead_simplify : ∀ {es : List Expr}, ExprsRead P es → ExprsRead P (simplifyExprs es)
  | [], h => h
  | _ :: _, h => ⟨Expr.Reads.simplify h.1, exprsRead_simplify h.2⟩

end

theorem declared_simplify (i : Bool) (s : Stmt) (x : String) (h : s.declared P x) :
    blockDeclared P (s.simplify i) x := by
  cases s with
  | assign name value => exact h
  | _ => exact blockDeclared_of h

mutual

theorem Stmt.Scoped.simplify {i : Bool} {P : String → Prop} :
    ∀ {s : Stmt}, s.Scoped i P → BlockScoped i P (s.simplify i)
  | .assign _ _, h => ⟨⟨h.1, h.2.simplify⟩, trivial⟩
  | .assignIndex _ _ _, h => ⟨⟨h.1, h.2.1.simplify, h.2.2.simplify⟩, trivial⟩
  | .assignAttribute _ _ _, h => ⟨⟨h.1, h.2.simplify⟩, trivial⟩
  | .print _, h => ⟨Expr.Reads.simplify h, trivial⟩
  | .ifElse _ body orelse, h => by
    have hbody := blockScoped_simplify h.2.1
    have horelse := blockScoped_simplify h.2.2
    rw [Stmt.simplify]
    split
    · exact hbody
    · exact horelse
    · exact ⟨⟨h.1.simplify, hbody, horelse⟩, trivial⟩
  | .whileLoop _ _, h => ⟨⟨h.1.simplify, blockScoped_simplify h.2⟩, trivial⟩
  | .forRange _ _ _ _, h =>
    ⟨⟨h.1, h.2.1.simplify, h.2.2.1.simplify, blockScoped_simplify h.2.2.2⟩, trivial⟩
  | .define _, h => ⟨⟨h.1, routineScoped_simplify h.2⟩, trivial⟩
  | .defineClass _, h => ⟨⟨h.1, classScoped_simplify h.2⟩, trivial⟩
  | .return none, h => ⟨h, trivial⟩
  | .return (some _), h => ⟨⟨h.1, h.2.simplify⟩, trivial⟩
  | .expr _, h => ⟨Expr.Reads.simplify h, trivial⟩
  | .pass, h => ⟨h, trivial⟩

theorem blockScoped_simplify {i : Bool} {P : String → Prop} :
    ∀ {block : List Stmt}, BlockScoped i P block → BlockScoped i P (simplifyBlock i block)
  | [], h => h
  | s :: _, h => by
    have hfirst := h.1.simplify
    have hrest := blockScoped_mono (declared_simplify i s) (blockScoped_simplify h.2)
    rw [simplifyBlock]
    split
    · exact hfirst
    · exact blockScoped_append hfirst hrest

theorem routineScoped_simplify {P : String → Prop} :
    ∀ {r : Routine (List Stmt)}, RoutineScoped P r → RoutineScoped P (simplifyRoutine r)
  | ⟨_, _, _⟩, h => ⟨h.1, blockScoped_simplify h.2⟩

theorem methodsScoped_simplify {P : String → Prop} :
    ∀ {ms : List (Routine (List Stmt))}, MethodsScoped P ms → MethodsScoped P (simplifyMethods ms)
  | [], h => h
  | _ :: _, h => ⟨routineScoped_simplify h.1, methodsScoped_simplify h.2⟩

theorem classScoped_simplify {P : String → Prop} :
    ∀ {c : Class (List Stmt)}, ClassScoped P c → ClassScoped P (simplifyClass c)
  | ⟨_, methods⟩, h =>
    ⟨h.1, h.2.1.map simplifyRoutine_name (fun _ hm ↦ simplifyMethods_eq methods ▸ hm),
      methodsScoped_simplify h.2.2⟩

end

/-! ### Definitions -/

/-- Definitions that all come from simplifying the given ones. -/
def ComeFrom (simplified defined : List (Routine Block) × List (Class Block)) : Prop :=
  simplified.1 ⊆ defined.1.map simplifyRoutine ∧ simplified.2 ⊆ defined.2.map simplifyClass

namespace ComeFrom

variable {a b c d : List (Routine Block) × List (Class Block)}

theorem nil : ComeFrom ([], []) a :=
  ⟨List.nil_subset _, List.nil_subset _⟩

theorem append (h : ComeFrom a c) (h' : ComeFrom b d) :
    ComeFrom (a.1 ++ b.1, a.2 ++ b.2) (c.1 ++ d.1, c.2 ++ d.2) := by
  refine ⟨?_, ?_⟩
  · rw [List.map_append]
    exact List.append_subset.mpr ⟨List.Subset.trans h.1 (List.subset_append_left _ _),
      List.Subset.trans h'.1 (List.subset_append_right _ _)⟩
  · rw [List.map_append]
    exact List.append_subset.mpr ⟨List.Subset.trans h.2 (List.subset_append_left _ _),
      List.Subset.trans h'.2 (List.subset_append_right _ _)⟩

theorem left (h : ComeFrom a c) : ComeFrom a (c.1 ++ d.1, c.2 ++ d.2) := by
  simpa using h.append nil

theorem right (h : ComeFrom a d) : ComeFrom a (c.1 ++ d.1, c.2 ++ d.2) := by
  simpa using (nil (a := c)).append h

end ComeFrom

theorem definitions_singleton (s : Stmt) : definitions [s] = definitionsOfStmt s := by
  simp [definitions]

mutual

theorem definitionsOfStmt_simplify (i : Bool) :
    ∀ s : Stmt, ComeFrom (definitions (s.simplify i)) (definitionsOfStmt s)
  | .assign _ _ => .nil
  | .assignIndex _ _ _ => .nil
  | .assignAttribute _ _ _ => .nil
  | .print _ => .nil
  | .ifElse condition body orelse => by
    have hbody := definitions_simplify i body
    have horelse := definitions_simplify i orelse
    rw [Stmt.simplify, definitionsOfStmt]
    split
    · exact hbody.left
    · exact horelse.right
    · rw [definitions_singleton, definitionsOfStmt]
      exact hbody.append horelse
  | .whileLoop condition body => by
    rw [Stmt.simplify, definitions_singleton]
    exact definitions_simplify i body
  | .forRange name start stop body => by
    rw [Stmt.simplify, definitions_singleton]
    exact definitions_simplify i body
  | .define routine => by
    rw [Stmt.simplify, definitions_singleton]
    exact ⟨List.Subset.refl _, List.nil_subset _⟩
  | .defineClass definition => by
    rw [Stmt.simplify, definitions_singleton]
    exact ⟨List.nil_subset _, List.Subset.refl _⟩
  | .return none => .nil
  | .return (some _) => .nil
  | .expr _ => .nil
  | .pass => .nil

theorem definitions_simplify (i : Bool) :
    ∀ block : List Stmt, ComeFrom (definitions (simplifyBlock i block)) (definitions block)
  | [] => .nil
  | s :: ss => by
    have hfirst := definitionsOfStmt_simplify i s
    have hrest := definitions_simplify i ss
    rw [simplifyBlock, definitions]
    split
    · exact hfirst.left
    · rw [definitions_append]
      exact hfirst.append hrest

end

/-- Simplifying keeps a program well formed. -/
theorem WellFormed.simplify {program : Block} (h : WellFormed program) :
    WellFormed (Offside.simplify program) where
  inScope := blockScoped_simplify h.inScope
  functions := h.functions.map simplifyRoutine_name (definitions_simplify false program).1
  classes := h.classes.map simplifyClass_name (definitions_simplify false program).2

end Offside
