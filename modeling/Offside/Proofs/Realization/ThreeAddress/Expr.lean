import Mathlib.Data.List.Forall2
import Offside.Proofs.Realization.Flow
import Offside.Proofs.ThreeAddress.Layout

/-!
Expressions in three-address form are realized, at the tariff of that form. The machine keeps the
value of an operand in a variable until an operation reads it. The value of a bare variable is read
late, so it has to be shown that nothing binds the variable in between: what comes in between binds
temporaries with higher numbers, or variables of other calls.
-/

set_option autoImplicit false
set_option relaxedAutoImplicit false

namespace Offside

open ThreeAddress
open Machine (Follows Binds Passes)
open Tariff (charge)

/-- The value of an operand is kept in its variable. -/
def Held (m : Machine) (a : Operand) (v : Value) : Prop :=
  m.vars.get? a.slot = some v

/-! ### Charges -/

section

variable {α : Type}

theorem threeAddress_perform (operands : Nat) (action : Walk α) :
    Tariff.threeAddress.perform operands action = (do charge operands; charge 1; action) := by
  rw [Tariff.perform, show operands * Tariff.threeAddress.operand = operands from
    Nat.mul_one operands]

/-- A value that is only put away. -/
theorem threeAddress_put (a : α) :
    Tariff.threeAddress.perform 1 (return a) = (do charge 2; return a) := by
  rw [threeAddress_perform, ← bind_assoc, ← charge_succ]

theorem threeAddress_operate (operands : Nat) (action : Walk α) :
    Tariff.threeAddress.operate operands action =
      (do
        charge operands
        let a ← (do charge 1; action)
        charge 1
        return a) := by
  rw [Tariff.operate, threeAddress_perform, bind_assoc]
  rfl

end

/-! ### Operands and results -/

section

variable {e : Executable} {limits : Limits} {kept kept' : String → Prop} {m₀ m m₁ : Machine}
  {s s₁ : WalkState} {place place' n : Nat} {operands : List Operand} {values : List Value}
  (hlimits : limits.steps = none)

theorem Visits.andThen (h : Visits e limits kept m₀ place s m)
    (h' : Visits e limits kept' m place' s₁ m₁) :
    Visits e limits (fun x ↦ kept x ∧ kept' x) m₀ place' s₁ m₁ :=
  (h.mono fun _ hx ↦ hx.1).trans (h'.mono fun _ hx ↦ hx.2)

theorem Visits.laidOut {layout : Nat → Nat} {ops : List Op} (h : Visits e limits kept m place s m₁)
    (hcode : LaidOut m.code layout place' ops) : LaidOut m₁.code layout place' ops := by
  rw [h.passes.code]
  exact hcode

theorem realizes_lookup {name : String} (hname : Plain name) (houter : m.outer = none)
    (hmatch : Matches e limits s m) :
    Realizes e m (Tariff.threeAddress.load name) s fun v s' m' ↦
      s' = s ∧ m' = m ∧ Held m (.variable name) v := by
  refine Walk.ensures_load (fun v hv ↦ ⟨m, .refl, rfl, rfl, ?_⟩)
    fun _ ↦ interrupted_undefinedVariable
  show m.vars.get? name = some v
  rw [← Machine.lookup_eq_vars houter, hmatch.lookup hname]
  exact hv

include hlimits

/-- The operands of an operation are loaded in order. -/
theorem realizes_loads (hheld : List.Forall₂ (Held m₀) operands values) :
    ∀ {s : WalkState} {m : Machine} {place : Nat} {stack : List Value},
      CodeAt m₀.code place (operands.map Operand.load) → Matches e limits s m →
      Follows m₀ m place stack →
      Realizes e m (charge operands.length) s fun _ s' m' ↦ Matches e limits s' m' ∧
        Follows m₀ m' (place + operands.length) (values.reverse ++ stack) := by
  induction hheld with
  | nil => exact fun _ hmatch hfollows ↦ realizes_pure ⟨hmatch, hfollows⟩
  | @cons a v operands values ha _ ih =>
    intro s m place stack hcode hmatch hfollows
    have hv : m.lookup a.slot = some v := by
      rw [hfollows.lookup, Machine.lookup_of_vars ha]
    rw [List.length_cons, charge_succ, Nat.add_comm operands.length, ← Nat.add_assoc,
      List.reverse_cons, List.append_assoc]
    refine (Realizes.behind hfollows (realizes_loadVariable hlimits hmatch
      (hfollows.instr hcode.1) hv hfollows.stack)).bind ?_
    rintro _ s₁ m₁ ⟨hmatch₁, hfollows₁⟩
    exact ih hcode.2 hmatch₁ hfollows₁

/-- An operation with a result, which goes into a new temporary. -/
theorem realizes_result {action : Walk Value} {i : Instr} {k : Nat} (hn : n ≤ k)
    (hheld : List.Forall₂ (Held m₁) operands values)
    (hcode : CodeAt m.code place (operands.map Operand.load ++ [i, storeResult (k + 1)]))
    (h : Visits e limits (Older n) m place s₁ m₁)
    (haction : ∀ {s₂ : WalkState} {m₂ : Machine}, Matches e limits s₂ m₂ →
      m₂.code[m₂.place]? = some i → m₂.stack = values.reverse ++ m₁.stack →
      Realizes e m₂ (do charge 1; action) s₂ fun v s' m' ↦
        Matches e limits s' m' ∧ Follows m₂ m' (m₂.place + 1) (v :: m₁.stack)) :
    Realizes e m₁ (Tariff.threeAddress.operate operands.length action) s₁ fun v s' m' ↦
      Visits e limits (Older n) m (place + operands.length + 2) s' m' ∧
        Held m' (.temporary (k + 1)) v := by
  rw [codeAt_append, List.length_map] at hcode
  obtain ⟨hloads, hi, hstore, -⟩ := hcode
  rw [threeAddress_operate]
  refine (realizes_loads hlimits hheld (h.codeAt hloads) h.state h.here).bind ?_
  rintro _ s₂ m₂ ⟨hmatch₂, hfollows₂⟩
  refine (Realizes.behind hfollows₂ (haction hmatch₂ (hfollows₂.instr (h.instr hi))
    hfollows₂.stack)).bind ?_
  rintro v s₃ m₃ ⟨hmatch₃, hfollows₃⟩
  have hhidden : ¬Plain (slotOfTemporary (k + 1)) :=
    not_plain_slotOfTemporary _
  refine (realizes_storeHidden hlimits hmatch₃ hhidden (hfollows₃.instr (h.instr hstore))
    hfollows₃.stack).bind ?_
  rintro _ s₄ m₄ ⟨hmatch₄, hbinds⟩
  refine realizes_pure ⟨h.trans (.of_binds hmatch₄ hfollows₃ hbinds fun hold ↦ ?_), ?_⟩
  · exact not_older_slotOfTemporary k (hold.mono hn)
  · show m₄.vars.get? (slotOfTemporary (k + 1)) = some v
    rw [hbinds.vars, Bindings.get?_set_self]

end

/-! ### Expressions -/

section

variable {e : Executable} {limits : Limits} {kept : String → Prop} {m₀ m m₁ : Machine}
  {s s₁ : WalkState} {place n : Nat} {a : Operand} {v : Value}

/-- The machine has passed the operations of an expression, whose value is kept in an operand. Of
the variables, only temporaries after the first `n` have been bound. -/
def Computes (e : Executable) (limits : Limits) (n : Nat) (m : Machine) (place : Nat) (a : Operand)
    (v : Value) (s : WalkState) (m' : Machine) : Prop :=
  Visits e limits (Older n) m place s m' ∧ Held m' a v

theorem Held.of_visits (hheld : Held m a v) (h : Visits e limits (Older n) m place s m₁)
    (ha : Older n a.slot) : Held m₁ a v :=
  (h.passes.vars _ ha).trans hheld

theorem realizes_constant (hlimits : limits.steps = none) {c : Constant}
    (hcode : CodeAt m₀.code place [.loadConstant c, storeResult (n + 1)])
    (h : Visits e limits kept m₀ place s m) :
    Realizes e m (charge 2) s fun _ ↦
      Computes e limits n m (place + 2) (.temporary (n + 1)) (.ofConstant c) := by
  obtain ⟨hload, hstore, -⟩ := hcode
  have hhidden : ¬Plain (slotOfTemporary (n + 1)) :=
    not_plain_slotOfTemporary _
  rw [charge_succ]
  refine (Realizes.behind h.here (realizes_loadConstant hlimits h.state
    (h.here.instr (h.instr hload)) rfl)).bind ?_
  rintro _ s₁ m₁ ⟨hmatch₁, hfollows₁⟩
  refine (realizes_storeHidden hlimits hmatch₁ hhidden (hfollows₁.instr (h.instr hstore))
    hfollows₁.stack).post ?_
  rintro _ s₂ m₂ ⟨hmatch₂, hbinds⟩
  refine ⟨.of_binds hmatch₂ hfollows₁ hbinds (not_older_slotOfTemporary n), ?_⟩
  show m₂.vars.get? (slotOfTemporary (n + 1)) = some (.ofConstant c)
  rw [hbinds.vars, Bindings.get?_set_self]

/-- An operation on the values of two expressions. -/
theorem realizes_binary (hlimits : limits.steps = none) {left right : Walk Value}
    {action : Value → Value → Walk Value} {b : Operand} {i : Instr} {n₁ k place' : Nat}
    (hn : n ≤ n₁) (hk : n₁ ≤ k) (ha : Older n₁ a.slot)
    (hcode : CodeAt m.code place' [a.load, b.load, i, storeResult (k + 1)])
    (hleft : Realizes e m left s fun v ↦ Computes e limits n m place a v)
    (hright : ∀ s' m', Visits e limits (Older n) m place s' m' →
      Realizes e m' right s' fun v ↦ Computes e limits n₁ m' place' b v)
    (haction : ∀ (v w : Value) {stack : List Value} {s' : WalkState} {m' : Machine},
      Matches e limits s' m' → m'.code[m'.place]? = some i → m'.stack = w :: v :: stack →
      Realizes e m' (do charge 1; action v w) s' fun x s'' m'' ↦
        Matches e limits s'' m'' ∧ Follows m' m'' (m'.place + 1) (x :: stack)) :
    Realizes e m (do
        let v ← left
        let w ← right
        Tariff.threeAddress.operate 2 (action v w)) s fun v ↦
      Computes e limits n m (place' + 4) (.temporary (k + 1)) v := by
  refine hleft.bind ?_
  rintro v s₁ m₁ ⟨h₁, hheld₁⟩
  refine (hright s₁ m₁ h₁).bind ?_
  rintro w s₂ m₂ ⟨h₂, hheld₂⟩
  have hheld : List.Forall₂ (Held m₂) [a, b] [v, w] :=
    .cons (hheld₁.of_visits h₂ ha) (.cons hheld₂ .nil)
  have hvisits : Visits e limits (Older n) m place' s₂ m₂ :=
    h₁.trans (h₂.mono fun x hx ↦ hx.mono hn)
  have hresult := realizes_result hlimits (Nat.le_trans hn hk) hheld hcode hvisits
    fun hmatch hi hstack ↦ haction v w hmatch hi hstack
  exact hresult

end

section

variable {e : Executable} {limits : Limits} {invoke : Walk.Invocation} {layout : Nat → Nat}
  {m₀ : Machine}

mutual

/-- The operations of an expression compute its value. -/
theorem realizes_ofExpr (hinvoke : InvokesRealized e limits invoke)
    (hlimits : limits.steps = none) (houter : m₀.outer = none) :
    ∀ (ex : Expr) (n : Nat) {kept : String → Prop} {s : WalkState} {m : Machine} {place : Nat},
      ex.Reads Plain → LaidOut m₀.code layout place (ofExpr n ex).1 →
      Visits e limits kept m₀ place s m →
      Realizes e m (Tariff.threeAddress.eval invoke ex) s fun v ↦
        Computes e limits n m (place + totalWidth (ofExpr n ex).1) (ofExpr n ex).2.1 v
  | .number x, n, kept, s, m, place, _, hcode, h =>
    (realizes_constant hlimits hcode.1 h).bind fun _ _ _ h' ↦ realizes_pure h'
  | .boolean b, n, kept, s, m, place, _, hcode, h =>
    (realizes_constant hlimits hcode.1 h).bind fun _ _ _ h' ↦ realizes_pure h'
  | .variable name, n, kept, s, m, place, hreads, hcode, h => by
    refine (realizes_lookup hreads (h.passes.outer.trans houter) h.state).post ?_
    rintro v s' m' ⟨rfl, rfl, hheld⟩
    exact ⟨h.self, hheld⟩
  | .arith op left right, n, kept, s, m, place, hreads, hcode, h => by
    have hwidth : place + totalWidth (ofExpr n (.arith op left right)).1 =
        place + totalWidth (ofExpr n left).1 +
          totalWidth (ofExpr (ofExpr n left).2.2 right).1 + 4 := by
      simp only [ofExpr_arith, totalWidth_append, totalWidth, Op.width]
      omega
    simp only [ofExpr_arith, List.append_assoc, laidOut_append] at hcode
    obtain ⟨hleft, hright, hop, -⟩ := hcode
    rw [hwidth, Tariff.eval, ofExpr_arith]
    exact realizes_binary hlimits (le_ofExpr left n) (le_ofExpr right _)
      (older_ofExpr n hreads.1) (h.codeAt hop)
      (realizes_ofExpr hinvoke hlimits houter left n hreads.1 hleft h)
      (fun s₁ m₁ h₁ ↦
        realizes_ofExpr hinvoke hlimits houter right _ hreads.2 hright (h.andThen h₁))
      fun v w stack s₂ m₂ hmatch hi hstack ↦ realizes_arith hlimits hmatch hi hstack
  | .compare op left right, n, kept, s, m, place, hreads, hcode, h => by
    have hwidth : place + totalWidth (ofExpr n (.compare op left right)).1 =
        place + totalWidth (ofExpr n left).1 +
          totalWidth (ofExpr (ofExpr n left).2.2 right).1 + 4 := by
      simp only [ofExpr_compare, totalWidth_append, totalWidth, Op.width]
      omega
    simp only [ofExpr_compare, List.append_assoc, laidOut_append] at hcode
    obtain ⟨hleft, hright, hop, -⟩ := hcode
    rw [hwidth, Tariff.eval, ofExpr_compare]
    exact realizes_binary hlimits (le_ofExpr left n) (le_ofExpr right _)
      (older_ofExpr n hreads.1) (h.codeAt hop)
      (realizes_ofExpr hinvoke hlimits houter left n hreads.1 hleft h)
      (fun s₁ m₁ h₁ ↦
        realizes_ofExpr hinvoke hlimits houter right _ hreads.2 hright (h.andThen h₁))
      fun v w stack s₂ m₂ hmatch hi hstack ↦ realizes_compare hlimits hmatch hi hstack
  | .call name args, n, kept, s, m, place, hreads, hcode, h => by
    have hwidth : place + totalWidth (ofExpr n (.call name args)).1 =
        place + totalWidth (ofExprs n args).1 + (ofExprs n args).2.1.length + 2 := by
      simp only [ofExpr_call, totalWidth_append, totalWidth, Op.width]
      omega
    simp only [ofExpr_call, laidOut_append] at hcode
    obtain ⟨hargs, hcall, -⟩ := hcode
    rw [hwidth, Tariff.eval, ofExpr_call]
    refine (realizes_ofExprs hinvoke hlimits houter args n hreads hargs h).bind ?_
    rintro vs s₁ m₁ ⟨h₁, hheld₁⟩
    rw [← length_ofExprs args n]
    refine realizes_result hlimits (le_ofExprs args n) hheld₁ (h.codeAt hcall) h₁
      fun hmatch hi hstack ↦ ?_
    rw [hheld₁.length_eq] at hi
    exact realizes_call hinvoke hlimits hmatch hi hstack
  | .list items, n, kept, s, m, place, hreads, hcode, h => by
    have hwidth : place + totalWidth (ofExpr n (.list items)).1 =
        place + totalWidth (ofExprs n items).1 + (ofExprs n items).2.1.length + 2 := by
      simp only [ofExpr_list, totalWidth_append, totalWidth, Op.width]
      omega
    simp only [ofExpr_list, laidOut_append] at hcode
    obtain ⟨hitems, hbuild, -⟩ := hcode
    rw [hwidth, Tariff.eval, ofExpr_list]
    refine (realizes_ofExprs hinvoke hlimits houter items n hreads hitems h).bind ?_
    rintro vs s₁ m₁ ⟨h₁, hheld₁⟩
    rw [← length_ofExprs items n]
    refine realizes_result hlimits (le_ofExprs items n) hheld₁ (h.codeAt hbuild) h₁
      fun hmatch hi hstack ↦ ?_
    rw [hheld₁.length_eq] at hi
    exact realizes_buildList hlimits hmatch hi hstack
  | .index name position, n, kept, s, m, place, hreads, hcode, h => by
    have hwidth : place + totalWidth (ofExpr n (.index name position)).1 =
        place + totalWidth (ofExpr n position).1 + 2 + 2 := by
      simp only [ofExpr_index, totalWidth_append, totalWidth, Op.width]
      omega
    simp only [ofExpr_index, laidOut_append] at hcode
    obtain ⟨hposition, hindex, -⟩ := hcode
    rw [hwidth, Tariff.eval, ofExpr_index]
    refine (realizes_lookup hreads.1 (h.passes.outer.trans houter) h.state).bind ?_
    rintro list _ _ ⟨rfl, rfl, hlist⟩
    refine (realizes_ofExpr hinvoke hlimits houter position n hreads.2 hposition h).bind ?_
    rintro index s₁ m₁ ⟨h₁, hheld₁⟩
    have hheld : List.Forall₂ (Held m₁) [.variable name, (ofExpr n position).2.1] [list, index] :=
      .cons (hlist.of_visits h₁ (.of_plain hreads.1)) (.cons hheld₁ .nil)
    have hresult := realizes_result hlimits (le_ofExpr position n) hheld (h.codeAt hindex) h₁
      fun hmatch hi hstack ↦ realizes_loadIndex hlimits hmatch hi hstack
    exact hresult
  | .member object name, n, kept, s, m, place, hreads, hcode, h => by
    obtain ⟨hattribute, -⟩ := hcode
    rw [Tariff.eval]
    refine (realizes_lookup hreads (h.passes.outer.trans houter) h.state).bind ?_
    rintro v s m ⟨rfl, rfl, hheld⟩
    have hobject : List.Forall₂ (Held m) [.variable object] [v] := .cons hheld .nil
    have hresult := realizes_result hlimits (Nat.le_refl n) hobject (h.codeAt hattribute) h.self
      fun hmatch hi hstack ↦ realizes_loadAttribute hlimits hmatch hi hstack
    exact hresult
  | .methodCall object method args, n, kept, s, m, place, hreads, hcode, h => by
    have hwidth : place + totalWidth (ofExpr n (.methodCall object method args)).1 =
        place + totalWidth (ofExprs n args).1 + ((ofExprs n args).2.1.length + 1) + 2 := by
      simp only [ofExpr_methodCall, totalWidth_append, totalWidth, Op.width]
      omega
    simp only [ofExpr_methodCall, laidOut_append] at hcode
    obtain ⟨hargs, hcall, -⟩ := hcode
    rw [hwidth, Tariff.eval, ofExpr_methodCall]
    refine (realizes_lookup hreads.1 (h.passes.outer.trans houter) h.state).bind ?_
    rintro receiver _ _ ⟨rfl, rfl, hreceiver⟩
    refine (realizes_ofExprs hinvoke hlimits houter args n hreads.2 hargs h).bind ?_
    rintro vs s₁ m₁ ⟨h₁, hheld₁⟩
    rw [← length_ofExprs args n]
    have hheld : List.Forall₂ (Held m₁) (.variable object :: (ofExprs n args).2.1)
        (receiver :: vs) :=
      .cons (hreceiver.of_visits h₁ (.of_plain hreads.1)) hheld₁
    have hcalled {s₂ : WalkState} {m₂ : Machine} (hmatch : Matches e limits s₂ m₂)
        (hi : m₂.code[m₂.place]? = some (.callMethod method (ofExprs n args).2.1.length))
        (hstack : m₂.stack = (receiver :: vs).reverse ++ m₁.stack) :
        Realizes e m₂ (do charge 1; Walk.callMethod invoke receiver method vs) s₂ fun v s' m' ↦
          Matches e limits s' m' ∧ Follows m₂ m' (m₂.place + 1) (v :: m₁.stack) := by
      rw [hheld₁.length_eq] at hi
      rw [List.reverse_cons, List.append_assoc] at hstack
      exact realizes_callMethod hinvoke hlimits hmatch hi hstack
    have hresult := realizes_result hlimits (le_ofExprs args n) hheld (h.codeAt hcall) h₁ hcalled
    exact hresult

/-- The operations of expressions in a row compute their values. -/
theorem realizes_ofExprs (hinvoke : InvokesRealized e limits invoke)
    (hlimits : limits.steps = none) (houter : m₀.outer = none) :
    ∀ (es : List Expr) (n : Nat) {kept : String → Prop} {s : WalkState} {m : Machine}
      {place : Nat}, ExprsRead Plain es → LaidOut m₀.code layout place (ofExprs n es).1 →
      Visits e limits kept m₀ place s m →
      Realizes e m (Tariff.threeAddress.evalAll invoke es) s fun vs s' m' ↦
        Visits e limits (Older n) m (place + totalWidth (ofExprs n es).1) s' m' ∧
          List.Forall₂ (Held m') (ofExprs n es).2.1 vs
  | [], n, kept, s, m, place, _, _, h => realizes_pure ⟨h.self, .nil⟩
  | ex :: es, n, kept, s, m, place, hreads, hcode, h => by
    rw [ofExprs_cons] at hcode ⊢
    obtain ⟨hfirst, hrest⟩ := laidOut_append.mp hcode
    rw [Tariff.evalAll, totalWidth_append, ← Nat.add_assoc]
    refine (realizes_ofExpr hinvoke hlimits houter ex n hreads.1 hfirst h).bind ?_
    rintro v s₁ m₁ ⟨h₁, hheld₁⟩
    refine (realizes_ofExprs hinvoke hlimits houter es _ hreads.2 hrest (h.andThen h₁)).bind ?_
    rintro vs s₂ m₂ ⟨h₂, hheld₂⟩
    exact realizes_pure ⟨h₁.trans (h₂.mono fun x hx ↦ hx.mono (le_ofExpr ex n)),
      .cons (hheld₁.of_visits h₂ (older_ofExpr n hreads.1)) hheld₂⟩

end

end

end Offside
