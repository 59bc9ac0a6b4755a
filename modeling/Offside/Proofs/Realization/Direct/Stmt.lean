import Offside.Proofs.Realization.Direct.Expr

/-!
Directly lowered statements are realized, with the statements in their bodies assumed to be.
Counting loops are in `Offside.Proofs.Realization.Direct.Block`.
-/

set_option autoImplicit false
set_option relaxedAutoImplicit false

namespace Offside

open Machine (Follows Binds Passes)
open Tariff (charge)

/-! ### Statements without a body -/

section

variable {e : Executable} {limits : Limits} {invoke : Walk.Invocation}
  {kept kept' : String → Prop} {m₀ m : Machine} {s : WalkState} {place : Nat}
  (hinvoke : InvokesRealized e limits invoke) (hlimits : limits.steps = none)

include hinvoke hlimits

/-- The test of a conditional or a loop. -/
theorem realizes_test {condition : Expr} {target : Nat} (hreads : condition.Reads Plain)
    (hcode : CodeAt m₀.code place condition.code)
    (hi : m₀.code[place + condition.code.length]? = some (.jumpIfFalse target))
    (htarget : target ≤ m₀.code.size) (h : Visits e limits kept m₀ place s m) :
    Realizes e m (Tariff.direct.eval invoke condition >>= Tariff.direct.test) s fun b ↦
      Visits e limits kept m₀ (if b then place + condition.code.length + 1 else target) := by
  refine (realizes_eval hinvoke hlimits condition hreads (h.codeAt hcode) h.state h.here).bind ?_
  rintro v s₁ m₁ ⟨hmatch₁, hfollows₁⟩
  rw [Tariff.test, direct_perform]
  refine (realizes_branch hlimits hmatch₁ hfollows₁ (h.instr hi) (h.le_size htarget)).post ?_
  rintro b s₂ m₂ ⟨hmatch₂, hfollows₂⟩
  exact h.trans (.of_follows hmatch₂ hfollows₂)

/-- An expression whose value goes into a hidden variable. -/
theorem realizes_evalInto {ex : Expr} {name : String} (hreads : ex.Reads Plain)
    (hcode : CodeAt m₀.code place ex.code)
    (hi : m₀.code[place + ex.code.length]? = some (.storeVariable name)) (hname : ¬Plain name)
    (h : Visits e limits kept m₀ place s m) :
    Realizes e m (do let v ← Tariff.direct.eval invoke ex; charge 1; return v) s fun v s' m' ↦
      Visits e limits (· ≠ name) m (place + ex.code.length + 1) s' m' ∧
        m'.vars.get? name = some v := by
  refine (realizes_eval hinvoke hlimits ex hreads (h.codeAt hcode) h.state h.here).bind ?_
  rintro v s₁ m₁ ⟨hmatch₁, hfollows₁⟩
  refine (realizes_storeHidden hlimits hmatch₁ hname (hfollows₁.instr (h.instr hi))
    hfollows₁.stack).bind ?_
  rintro _ s₂ m₂ ⟨hmatch₂, hbinds⟩
  refine realizes_pure ⟨.of_binds hmatch₂ hfollows₁ hbinds (fun hne ↦ hne rfl), ?_⟩
  rw [hbinds.vars, Bindings.get?_set_self]

variable {fuel : Nat}

theorem realizes_assign {name : String} {value : Expr} (hkept : ¬kept name)
    (hreads : value.Reads Plain)
    (hcode : CodeAt m₀.code place (value.code ++ [.storeVariable name]))
    (h : Visits e limits kept m₀ place s m) :
    Realizes e m (Tariff.direct.exec fuel invoke (.assign name value)) s
      (Completes e limits m₀ (Visits e limits kept m₀ (place + value.code.length + 1))) := by
  rw [codeAt_append] at hcode
  obtain ⟨hvalue, hstore, -⟩ := hcode
  rw [Tariff.exec]
  refine (realizes_eval hinvoke hlimits value hreads (h.codeAt hvalue) h.state h.here).bind ?_
  rintro v s₁ m₁ ⟨hmatch₁, hfollows₁⟩
  rw [direct_perform]
  refine (realizes_store hlimits hmatch₁ (hfollows₁.instr (h.instr hstore))
    hfollows₁.stack).bind ?_
  rintro _ s₂ m₂ ⟨hmatch₂, hbinds⟩
  exact realizes_pure (h.trans (.of_binds hmatch₂ hfollows₁ hbinds hkept))

theorem realizes_assignIndex {name : String} {position value : Expr} (hname : Plain name)
    (hposition : position.Reads Plain) (hvalue : value.Reads Plain)
    (hcode : CodeAt m₀.code place
      (.loadVariable name :: position.code ++ value.code ++ [.storeIndex]))
    (h : Visits e limits kept m₀ place s m) :
    Realizes e m (Tariff.direct.exec fuel invoke (.assignIndex name position value)) s
      (Completes e limits m₀
        (Visits e limits kept m₀ (place + 1 + position.code.length + value.code.length + 1))) := by
  rw [List.append_assoc, List.cons_append, CodeAt, codeAt_append, codeAt_append] at hcode
  obtain ⟨hload, hfirst, hsecond, hstore, -⟩ := hcode
  rw [Tariff.exec]
  refine (Realizes.behind h.here (realizes_load hlimits h.state hname (h.here.instr (h.instr hload))
    rfl)).bind ?_
  rintro list s₁ m₁ ⟨hmatch₁, hfollows₁⟩
  refine (realizes_eval hinvoke hlimits position hposition (h.codeAt hfirst) hmatch₁
    hfollows₁).bind ?_
  rintro index s₂ m₂ ⟨hmatch₂, hfollows₂⟩
  refine (realizes_eval hinvoke hlimits value hvalue (h.codeAt hsecond) hmatch₂ hfollows₂).bind ?_
  rintro v s₃ m₃ ⟨hmatch₃, hfollows₃⟩
  rw [direct_perform]
  refine (Realizes.behind hfollows₃ (realizes_storeIndex hlimits hmatch₃
    (hfollows₃.instr (h.instr hstore)) hfollows₃.stack)).bind ?_
  rintro _ s₄ m₄ ⟨hmatch₄, hfollows₄⟩
  exact realizes_pure (h.trans (.of_follows hmatch₄ hfollows₄))

theorem realizes_assignAttribute {object name : String} {value : Expr} (hobject : Plain object)
    (hreads : value.Reads Plain)
    (hcode : CodeAt m₀.code place (.loadVariable object :: value.code ++ [.storeAttribute name]))
    (h : Visits e limits kept m₀ place s m) :
    Realizes e m (Tariff.direct.exec fuel invoke (.assignAttribute object name value)) s
      (Completes e limits m₀ (Visits e limits kept m₀ (place + 1 + value.code.length + 1))) := by
  rw [List.cons_append, CodeAt, codeAt_append] at hcode
  obtain ⟨hload, hvalue, hstore, -⟩ := hcode
  rw [Tariff.exec]
  refine (Realizes.behind h.here (realizes_load hlimits h.state hobject
    (h.here.instr (h.instr hload)) rfl)).bind ?_
  rintro o s₁ m₁ ⟨hmatch₁, hfollows₁⟩
  refine (realizes_eval hinvoke hlimits value hreads (h.codeAt hvalue) hmatch₁ hfollows₁).bind ?_
  rintro v s₂ m₂ ⟨hmatch₂, hfollows₂⟩
  rw [direct_perform]
  refine (Realizes.behind hfollows₂ (realizes_storeAttribute hlimits hmatch₂
    (hfollows₂.instr (h.instr hstore)) hfollows₂.stack)).bind ?_
  rintro _ s₃ m₃ ⟨hmatch₃, hfollows₃⟩
  exact realizes_pure (h.trans (.of_follows hmatch₃ hfollows₃))

theorem realizes_printValue {value : Expr} (hreads : value.Reads Plain)
    (hcode : CodeAt m₀.code place (value.code ++ [.print]))
    (h : Visits e limits kept m₀ place s m) :
    Realizes e m (Tariff.direct.exec fuel invoke (.print value)) s
      (Completes e limits m₀ (Visits e limits kept m₀ (place + value.code.length + 1))) := by
  rw [codeAt_append] at hcode
  obtain ⟨hvalue, hprint, -⟩ := hcode
  rw [Tariff.exec]
  refine (realizes_eval hinvoke hlimits value hreads (h.codeAt hvalue) h.state h.here).bind ?_
  rintro v s₁ m₁ ⟨hmatch₁, hfollows₁⟩
  rw [direct_perform]
  refine (Realizes.behind hfollows₁ (realizes_print hlimits hmatch₁
    (hfollows₁.instr (h.instr hprint)) hfollows₁.stack)).bind ?_
  rintro _ s₂ m₂ ⟨hmatch₂, hfollows₂⟩
  exact realizes_pure (h.trans (.of_follows hmatch₂ hfollows₂))

/-- An expression whose value is dropped. -/
theorem realizes_expr {value : Expr} (hreads : value.Reads Plain)
    (hcode : CodeAt m₀.code place (value.code ++ [.pop]))
    (h : Visits e limits kept m₀ place s m) :
    Realizes e m (Tariff.direct.exec fuel invoke (.expr value)) s
      (Completes e limits m₀ (Visits e limits kept m₀ (place + value.code.length + 1))) := by
  rw [codeAt_append] at hcode
  obtain ⟨hvalue, hpop, -⟩ := hcode
  rw [Tariff.exec]
  refine (realizes_eval hinvoke hlimits value hreads (h.codeAt hvalue) h.state h.here).bind ?_
  rintro v s₁ m₁ ⟨hmatch₁, hfollows₁⟩
  refine (Realizes.behind hfollows₁ (realizes_pop hlimits hmatch₁
    (hfollows₁.instr (h.instr hpop)) hfollows₁.stack)).bind ?_
  rintro _ s₂ m₂ ⟨hmatch₂, hfollows₂⟩
  exact realizes_pure (h.trans (.of_follows hmatch₂ hfollows₂))

theorem realizes_return {value : Expr} {Q : WalkState → Machine → Prop}
    (hreads : value.Reads Plain) (hcode : CodeAt m₀.code place (value.code ++ [.returnValue]))
    (h : Visits e limits kept m₀ place s m) :
    Realizes e m (Tariff.direct.exec fuel invoke (.return (some value))) s
      (Completes e limits m₀ Q) := by
  rw [codeAt_append] at hcode
  obtain ⟨hvalue, hreturn, -⟩ := hcode
  rw [Tariff.exec]
  refine (realizes_eval hinvoke hlimits value hreads (h.codeAt hvalue) h.state h.here).bind ?_
  rintro v s₁ m₁ ⟨hmatch₁, hfollows₁⟩
  exact realizes_pure (Returns.of_visits h (.of_follows hmatch₁ hfollows₁ (h.instr hreturn)))

omit hinvoke in
theorem realizes_returnNone {Q : WalkState → Machine → Prop}
    (hcode : CodeAt m₀.code place returnNone) (h : Visits e limits kept m₀ place s m) :
    Realizes e m (Tariff.direct.exec fuel invoke (.return none)) s (Completes e limits m₀ Q) := by
  obtain ⟨hnone, hreturn, -⟩ := hcode
  rw [Tariff.exec]
  refine (Realizes.behind h.here (realizes_loadConstant hlimits h.state
    (h.here.instr (h.instr hnone)) rfl)).bind ?_
  rintro _ s₁ m₁ ⟨hmatch₁, hfollows₁⟩
  exact realizes_pure (Returns.of_visits h (.of_follows hmatch₁ hfollows₁ (h.instr hreturn)))

end

/-! ### Conditionals and loops on a condition -/

section

variable {e : Executable} {limits : Limits} {invoke : Walk.Invocation} {kept : String → Prop}
  {m₀ m : Machine} {s : WalkState} {place fuel : Nat} {condition : Expr} {body : Block}
  {bodyCode : List Instr} (hinvoke : InvokesRealized e limits invoke)
  (hlimits : limits.steps = none) (hreads : condition.Reads Plain)

include hinvoke hlimits hreads

theorem realizes_ifThen {code : List Instr}
    (heq : code = condition.code ++
      .jumpIfFalse (place + condition.code.length + 1 + bodyCode.length) :: bodyCode)
    (hcode : CodeAt m₀.code place code)
    (hbody : CodeAt m₀.code (place + condition.code.length + 1) bodyCode → ∀ s' m',
      Visits e limits kept m₀ (place + condition.code.length + 1) s' m' →
      Realizes e m' (Tariff.direct.execBlock fuel invoke body) s' (Completes e limits m₀
        (Visits e limits kept m₀ (place + condition.code.length + 1 + bodyCode.length))))
    (h : Visits e limits kept m₀ place s m) :
    Realizes e m (Tariff.direct.exec fuel invoke (.ifElse condition body [])) s
      (Completes e limits m₀ (Visits e limits kept m₀ (place + code.length))) := by
  subst heq
  have hsize := hcode.le_size (List.append_ne_nil_of_right_ne_nil _ (List.cons_ne_nil _ _))
  have hplace : place + condition.code.length + 1 + bodyCode.length =
      place + (condition.code ++ .jumpIfFalse (place + condition.code.length + 1 + bodyCode.length)
        :: bodyCode).length := by
    rw [List.length_append, List.length_cons]
    omega
  obtain ⟨hcondition, hbranch, hbodyCode⟩ := codeAt_append.mp hcode
  rw [← hplace] at hsize ⊢
  rw [Tariff.exec]
  exact realizes_ifElse (realizes_test hinvoke hlimits hreads hcondition hbranch hsize h)
    (hbody hbodyCode) (fun s' m' h' ↦ realizes_pure h') fun s' m' h' ↦ realizes_pure h'

theorem realizes_ifThenElse {st : Stmt} {orelse : Block} {elseCode code : List Instr}
    {elseStart stop : Nat}
    (helse : elseStart = place + condition.code.length + 1 + bodyCode.length + 1)
    (hstop : stop = elseStart + elseCode.length)
    (heq : code = condition.code ++ .jumpIfFalse elseStart :: bodyCode ++ .jump stop :: elseCode)
    (hcode : CodeAt m₀.code place code)
    (hbody : CodeAt m₀.code (place + condition.code.length + 1) bodyCode → ∀ s' m',
      Visits e limits kept m₀ (place + condition.code.length + 1) s' m' →
      Realizes e m' (Tariff.direct.execBlock fuel invoke body) s' (Completes e limits m₀
        (Visits e limits kept m₀ (place + condition.code.length + 1 + bodyCode.length))))
    (horelse : CodeAt m₀.code elseStart elseCode → ∀ s' m',
      Visits e limits kept m₀ elseStart s' m' →
      Realizes e m' (Tariff.direct.execBlock fuel invoke (st :: orelse)) s'
        (Completes e limits m₀ (Visits e limits kept m₀ (elseStart + elseCode.length))))
    (h : Visits e limits kept m₀ place s m) :
    Realizes e m (Tariff.direct.exec fuel invoke (.ifElse condition body (st :: orelse))) s
      (Completes e limits m₀ (Visits e limits kept m₀ (place + code.length))) := by
  have hplace : place + code.length = stop := by
    simp only [heq, List.length_append, List.length_cons]
    omega
  have hne : code ≠ [] := by
    rw [heq]
    exact List.append_ne_nil_of_right_ne_nil _ (List.cons_ne_nil _ _)
  have hsize := hcode.le_size hne
  rw [heq, List.append_assoc, codeAt_append, List.cons_append, CodeAt, codeAt_append] at hcode
  obtain ⟨hcondition, hbranch, hbodyCode, hjump, helseCode⟩ := hcode
  rw [← helse] at helseCode
  rw [← hstop] at horelse
  rw [hplace] at hsize ⊢
  rw [Tariff.exec]
  refine realizes_ifElse
    (realizes_test hinvoke hlimits hreads hcondition hbranch (by omega) h) (hbody hbodyCode)
    (fun s' m' h' ↦ ?_) (horelse helseCode)
  refine (realizes_jumpTo hlimits h' hjump hsize).post ?_
  rintro _ s₁ m₁ ⟨hmatch₁, hfollows₁⟩
  exact h'.trans (.of_follows hmatch₁ hfollows₁)

theorem realizes_while {code : List Instr} {stop : Nat}
    (hstop : stop = place + condition.code.length + 1 + bodyCode.length + 1)
    (heq : code = condition.code ++ .jumpIfFalse stop :: bodyCode ++ [.jump place])
    (hcode : CodeAt m₀.code place code)
    (hbody : CodeAt m₀.code (place + condition.code.length + 1) bodyCode → ∀ s' m',
      Visits e limits kept m₀ (place + condition.code.length + 1) s' m' →
      Realizes e m' (Tariff.direct.execBlock fuel invoke body) s' (Completes e limits m₀
        (Visits e limits kept m₀ (place + condition.code.length + 1 + bodyCode.length))))
    (h : Visits e limits kept m₀ place s m) :
    Realizes e m (Tariff.direct.exec fuel invoke (.whileLoop condition body)) s
      (Completes e limits m₀ (Visits e limits kept m₀ (place + code.length))) := by
  have hplace : place + code.length = stop := by
    simp only [heq, List.length_append, List.length_cons, List.length_nil]
    omega
  have hne : code ≠ [] := by
    rw [heq]
    exact List.append_ne_nil_of_right_ne_nil _ (List.cons_ne_nil _ _)
  have hsize := hcode.le_size hne
  rw [heq, List.append_assoc, codeAt_append, List.cons_append, CodeAt, codeAt_append] at hcode
  obtain ⟨hcondition, hbranch, hbodyCode, hjump, -⟩ := hcode
  rw [hplace] at hsize ⊢
  rw [Tariff.exec]
  refine realizes_whileLoop hlimits (fun s' m' h' ↦ ?_) (hbody hbodyCode) hjump (by omega) fuel
    s m h
  exact realizes_test hinvoke hlimits hreads hcondition hbranch hsize h'

end

end Offside
