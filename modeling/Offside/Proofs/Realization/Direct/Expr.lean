import Offside.Proofs.Realization.Flow

/-!
Directly lowered expressions are realized: a machine that stands in front of the code of an
expression follows its metered walk at the direct tariff and leaves its value on the stack.
-/

set_option autoImplicit false
set_option relaxedAutoImplicit false

namespace Offside

open Machine (Follows Binds Passes)
open Tariff (charge)

section

variable {α : Type}

/-- At the direct tariff, values stay on the stack. -/
theorem direct_perform (operands : Nat) (action : Walk α) :
    Tariff.direct.perform operands action = (do charge 1; action) := by
  rw [Tariff.perform, show operands * Tariff.direct.operand = 0 from Nat.mul_zero operands,
    charge_zero, pure_bind]

theorem direct_operate (operands : Nat) (action : Walk α) :
    Tariff.direct.operate operands action = (do charge 1; action) := by
  rw [Tariff.operate, direct_perform, show Tariff.direct.result = 0 from rfl]
  simp only [charge_zero, pure_bind, bind_pure]

end

section

variable {e : Executable} {limits : Limits} {invoke : Walk.Invocation}

mutual

/-- The code of an expression leaves its value on the stack. The machine stands at the given place
of the block of `m₀`. -/
theorem realizes_eval (hinvoke : InvokesRealized e limits invoke) (hlimits : limits.steps = none)
    {m₀ : Machine} : ∀ (ex : Expr) {s : WalkState} {m : Machine} {place : Nat} {stack : List Value},
      ex.Reads Plain → CodeAt m₀.code place ex.code → Matches e limits s m →
      Follows m₀ m place stack →
      Realizes e m (Tariff.direct.eval invoke ex) s fun v s' m' ↦
        Matches e limits s' m' ∧ Follows m₀ m' (place + ex.code.length) (v :: stack)
  | .number n, s, m, place, stack, _, hcode, hmatch, hfollows =>
    (Realizes.behind hfollows (realizes_loadConstant hlimits hmatch (hfollows.instr hcode.1)
      hfollows.stack)).bind fun _ _ _ h ↦ realizes_pure h
  | .boolean b, s, m, place, stack, _, hcode, hmatch, hfollows =>
    (Realizes.behind hfollows (realizes_loadConstant hlimits hmatch (hfollows.instr hcode.1)
      hfollows.stack)).bind fun _ _ _ h ↦ realizes_pure h
  | .variable name, s, m, place, stack, hreads, hcode, hmatch, hfollows =>
    .behind hfollows (realizes_load hlimits hmatch hreads (hfollows.instr hcode.1) hfollows.stack)
  | .arith op left right, s, m, place, stack, hreads, hcode, hmatch, hfollows => by
    rw [Expr.code, List.append_assoc, codeAt_append, codeAt_append] at hcode
    obtain ⟨hleft, hright, hop, -⟩ := hcode
    rw [Tariff.eval]
    refine (realizes_eval hinvoke hlimits left hreads.1 hleft hmatch hfollows).bind ?_
    rintro a s₁ m₁ ⟨hmatch₁, hfollows₁⟩
    refine (realizes_eval hinvoke hlimits right hreads.2 hright hmatch₁ hfollows₁).bind ?_
    rintro b s₂ m₂ ⟨hmatch₂, hfollows₂⟩
    rw [direct_operate, Expr.code, List.length_append, List.length_append, ← Nat.add_assoc,
      ← Nat.add_assoc]
    exact .behind hfollows₂
      (realizes_arith hlimits hmatch₂ (hfollows₂.instr hop) hfollows₂.stack)
  | .compare op left right, s, m, place, stack, hreads, hcode, hmatch, hfollows => by
    rw [Expr.code, List.append_assoc, codeAt_append, codeAt_append] at hcode
    obtain ⟨hleft, hright, hop, -⟩ := hcode
    rw [Tariff.eval]
    refine (realizes_eval hinvoke hlimits left hreads.1 hleft hmatch hfollows).bind ?_
    rintro a s₁ m₁ ⟨hmatch₁, hfollows₁⟩
    refine (realizes_eval hinvoke hlimits right hreads.2 hright hmatch₁ hfollows₁).bind ?_
    rintro b s₂ m₂ ⟨hmatch₂, hfollows₂⟩
    rw [direct_operate, Expr.code, List.length_append, List.length_append, ← Nat.add_assoc,
      ← Nat.add_assoc]
    exact .behind hfollows₂
      (realizes_compare hlimits hmatch₂ (hfollows₂.instr hop) hfollows₂.stack)
  | .call name args, s, m, place, stack, hreads, hcode, hmatch, hfollows => by
    rw [Expr.code, codeAt_append] at hcode
    obtain ⟨hargs, hcall, -⟩ := hcode
    rw [Tariff.eval]
    refine (realizes_evalAll hinvoke hlimits args hreads hargs hmatch hfollows).bind ?_
    rintro values s₁ m₁ ⟨hlength, hmatch₁, hfollows₁⟩
    rw [direct_operate, Expr.code, List.length_append, ← Nat.add_assoc]
    rw [← hlength] at hcall
    exact .behind hfollows₁
      (realizes_call hinvoke hlimits hmatch₁ (hfollows₁.instr hcall) hfollows₁.stack)
  | .list items, s, m, place, stack, hreads, hcode, hmatch, hfollows => by
    rw [Expr.code, codeAt_append] at hcode
    obtain ⟨hitems, hbuild, -⟩ := hcode
    rw [Tariff.eval]
    refine (realizes_evalAll hinvoke hlimits items hreads hitems hmatch hfollows).bind ?_
    rintro values s₁ m₁ ⟨hlength, hmatch₁, hfollows₁⟩
    rw [direct_operate, Expr.code, List.length_append, ← Nat.add_assoc]
    rw [← hlength] at hbuild
    exact .behind hfollows₁
      (realizes_buildList hlimits hmatch₁ (hfollows₁.instr hbuild) hfollows₁.stack)
  | .index name position, s, m, place, stack, hreads, hcode, hmatch, hfollows => by
    rw [Expr.code, List.cons_append, CodeAt, codeAt_append] at hcode
    obtain ⟨hload, hposition, hindex, -⟩ := hcode
    rw [Tariff.eval]
    refine (Realizes.behind hfollows (realizes_load hlimits hmatch hreads.1 (hfollows.instr hload)
      hfollows.stack)).bind ?_
    rintro list s₁ m₁ ⟨hmatch₁, hfollows₁⟩
    refine (realizes_eval hinvoke hlimits position hreads.2 hposition hmatch₁ hfollows₁).bind ?_
    rintro index s₂ m₂ ⟨hmatch₂, hfollows₂⟩
    have hplace : place + (Expr.index name position).code.length =
        place + 1 + position.code.length + 1 := by
      simp only [Expr.code, List.length_append, List.length_cons, List.length_nil]
      omega
    rw [direct_operate, hplace]
    exact .behind hfollows₂
      (realizes_loadIndex hlimits hmatch₂ (hfollows₂.instr hindex) hfollows₂.stack)
  | .member object name, s, m, place, stack, hreads, hcode, hmatch, hfollows => by
    obtain ⟨hload, hattribute, -⟩ := hcode
    rw [Tariff.eval]
    refine (Realizes.behind hfollows (realizes_load hlimits hmatch hreads (hfollows.instr hload)
      hfollows.stack)).bind ?_
    rintro v s₁ m₁ ⟨hmatch₁, hfollows₁⟩
    rw [direct_operate]
    exact .behind hfollows₁
      (realizes_loadAttribute hlimits hmatch₁ (hfollows₁.instr hattribute) hfollows₁.stack)
  | .methodCall object method args, s, m, place, stack, hreads, hcode, hmatch, hfollows => by
    rw [Expr.code, List.cons_append, CodeAt, codeAt_append] at hcode
    obtain ⟨hload, hargs, hcall, -⟩ := hcode
    rw [Tariff.eval]
    refine (Realizes.behind hfollows (realizes_load hlimits hmatch hreads.1 (hfollows.instr hload)
      hfollows.stack)).bind ?_
    rintro receiver s₁ m₁ ⟨hmatch₁, hfollows₁⟩
    refine (realizes_evalAll hinvoke hlimits args hreads.2 hargs hmatch₁ hfollows₁).bind ?_
    rintro values s₂ m₂ ⟨hlength, hmatch₂, hfollows₂⟩
    have hplace : place + (Expr.methodCall object method args).code.length =
        place + 1 + (codeOfExprs args).length + 1 := by
      simp only [Expr.code, List.length_append, List.length_cons, List.length_nil]
      omega
    rw [direct_operate, hplace]
    rw [← hlength] at hcall
    exact .behind hfollows₂
      (realizes_callMethod hinvoke hlimits hmatch₂ (hfollows₂.instr hcall) hfollows₂.stack)

/-- The code of expressions in a row leaves their values on the stack, the last one on top. -/
theorem realizes_evalAll (hinvoke : InvokesRealized e limits invoke)
    (hlimits : limits.steps = none) {m₀ : Machine} :
    ∀ (es : List Expr) {s : WalkState} {m : Machine} {place : Nat} {stack : List Value},
      ExprsRead Plain es → CodeAt m₀.code place (codeOfExprs es) → Matches e limits s m →
      Follows m₀ m place stack →
      Realizes e m (Tariff.direct.evalAll invoke es) s fun vs s' m' ↦
        vs.length = es.length ∧ Matches e limits s' m' ∧
          Follows m₀ m' (place + (codeOfExprs es).length) (vs.reverse ++ stack)
  | [], s, m, place, stack, _, _, hmatch, hfollows => realizes_pure ⟨rfl, hmatch, hfollows⟩
  | ex :: es, s, m, place, stack, hreads, hcode, hmatch, hfollows => by
    rw [codeOfExprs, codeAt_append] at hcode
    rw [Tariff.evalAll]
    refine (realizes_eval hinvoke hlimits ex hreads.1 hcode.1 hmatch hfollows).bind ?_
    rintro v s₁ m₁ ⟨hmatch₁, hfollows₁⟩
    refine (realizes_evalAll hinvoke hlimits es hreads.2 hcode.2 hmatch₁ hfollows₁).bind ?_
    rintro vs s₂ m₂ ⟨hlength, hmatch₂, hfollows₂⟩
    refine realizes_pure ⟨congrArg (· + 1) hlength, hmatch₂, ?_⟩
    rw [codeOfExprs, List.length_append, ← Nat.add_assoc, List.reverse_cons, List.append_assoc]
    exact hfollows₂

end

end

end Offside
