import Offside.Proofs.Realization.ThreeAddress.Expr

/-!
Statements in three-address form are realized, with the statements in their bodies assumed to be.
No call is open at the top level of a program, and nothing there returns. Counting loops are in
`Offside.Proofs.Realization.ThreeAddress.Block`.
-/

set_option autoImplicit false
set_option relaxedAutoImplicit false

namespace Offside

open ThreeAddress
open Machine (Follows Binds Passes)
open Tariff (charge)

/-! ### Statements without a body -/

section

variable {e : Executable} {limits : Limits} {kept : String → Prop} {m₀ m : Machine}
  {s : WalkState} {place : Nat} {operands : List Operand} {values : List Value} {a : Operand}
  {v : Value} (hlimits : limits.steps = none)

include hlimits

/-- An operation without a result. -/
theorem realizes_effect {action : Walk Unit} {i : Instr}
    (hheld : List.Forall₂ (Held m) operands values)
    (hcode : CodeAt m₀.code place (operands.map Operand.load ++ [i]))
    (h : Visits e limits kept m₀ place s m)
    (haction : ∀ {s₁ : WalkState} {m₁ : Machine}, Matches e limits s₁ m₁ →
      m₁.code[m₁.place]? = some i → m₁.stack = values.reverse ++ m.stack →
      Realizes e m₁ (do charge 1; action) s₁ fun _ s' m' ↦
        Matches e limits s' m' ∧ Follows m₁ m' (m₁.place + 1) m.stack) :
    Realizes e m (Tariff.threeAddress.perform operands.length action) s fun _ ↦
      Visits e limits kept m₀ (place + operands.length + 1) := by
  rw [codeAt_append, List.length_map] at hcode
  obtain ⟨hloads, hi, -⟩ := hcode
  rw [threeAddress_perform]
  refine (realizes_loads hlimits hheld (h.codeAt hloads) h.state h.here).bind ?_
  rintro _ s₁ m₁ ⟨hmatch₁, hfollows₁⟩
  refine (Realizes.behind hfollows₁ (haction hmatch₁ (hfollows₁.instr (h.instr hi))
    hfollows₁.stack)).post ?_
  rintro _ s₂ m₂ ⟨hmatch₂, hfollows₂⟩
  exact h.trans (.of_follows hmatch₂ hfollows₂)

/-- An operand is copied to a variable of the program. -/
theorem realizes_copy {name : String} (hkept : ¬kept name) (hheld : Held m a v)
    (hcode : CodeAt m₀.code place [a.load, .storeVariable name])
    (h : Visits e limits kept m₀ place s m) :
    Realizes e m (Tariff.threeAddress.perform 1 (Walk.store name v)) s fun _ ↦
      Visits e limits kept m₀ (place + 2) := by
  obtain ⟨hload, hstore, -⟩ := hcode
  rw [threeAddress_perform]
  refine (Realizes.behind h.here (realizes_loadVariable hlimits h.state
    (h.here.instr (h.instr hload)) (Machine.lookup_of_vars hheld) rfl)).bind ?_
  rintro _ s₁ m₁ ⟨hmatch₁, hfollows₁⟩
  refine (realizes_store hlimits hmatch₁ (hfollows₁.instr (h.instr hstore))
    hfollows₁.stack).post ?_
  rintro _ s₂ m₂ ⟨hmatch₂, hbinds⟩
  exact h.trans (.of_binds hmatch₂ hfollows₁ hbinds hkept)

/-- An operand is copied to a hidden variable. -/
theorem realizes_copyHidden {name : String} (hname : ¬Plain name) (hheld : Held m a v)
    (hcode : CodeAt m₀.code place [a.load, .storeVariable name])
    (h : Visits e limits kept m₀ place s m) :
    Realizes e m (charge 2) s fun _ s' m' ↦
      Visits e limits (· ≠ name) m (place + 2) s' m' ∧ m'.vars.get? name = some v := by
  obtain ⟨hload, hstore, -⟩ := hcode
  rw [charge_succ]
  refine (Realizes.behind h.here (realizes_loadVariable hlimits h.state
    (h.here.instr (h.instr hload)) (Machine.lookup_of_vars hheld) rfl)).bind ?_
  rintro _ s₁ m₁ ⟨hmatch₁, hfollows₁⟩
  refine (realizes_storeHidden hlimits hmatch₁ hname (hfollows₁.instr (h.instr hstore))
    hfollows₁.stack).post ?_
  rintro _ s₂ m₂ ⟨hmatch₂, hbinds⟩
  refine ⟨.of_binds hmatch₂ hfollows₁ hbinds fun hne ↦ hne rfl, ?_⟩
  rw [hbinds.vars, Bindings.get?_set_self]

/-- A branch on the value of an operand. -/
theorem realizes_testHeld {target : Nat} (hheld : Held m a v)
    (hcode : CodeAt m₀.code place [a.load, .jumpIfFalse target]) (htarget : target ≤ m₀.code.size)
    (h : Visits e limits kept m₀ place s m) :
    Realizes e m (Tariff.threeAddress.test v) s fun b s' m' ↦
      Matches e limits s' m' ∧ Follows m m' (if b then place + 2 else target) m.stack := by
  obtain ⟨hload, hbranch, -⟩ := hcode
  rw [Tariff.test, threeAddress_perform]
  refine (Realizes.behind h.here (realizes_loadVariable hlimits h.state
    (h.here.instr (h.instr hload)) (Machine.lookup_of_vars hheld) rfl)).bind ?_
  rintro _ s₁ m₁ ⟨hmatch₁, hfollows₁⟩
  exact realizes_branch hlimits hmatch₁ hfollows₁ (h.instr hbranch) (h.le_size htarget)

end

section

variable {e : Executable} {limits : Limits} {invoke : Walk.Invocation} {layout : Nat → Nat}
  {kept : String → Prop} {m₀ m : Machine} {s : WalkState} {place fuel : Nat} {c : Counters}
  (hinvoke : InvokesRealized e limits invoke) (hlimits : limits.steps = none)
  (houter : m₀.outer = none) (hkept : ∀ x, kept x → HiddenBelow c.temporaries c.loops x)

include hinvoke hlimits houter hkept

/-- The operations of an expression, where what is kept is older than its temporaries. -/
theorem realizes_value {value : Expr} (hreads : value.Reads Plain)
    (hcode : LaidOut m₀.code layout place (ofExpr c.temporaries value).1)
    (h : Visits e limits kept m₀ place s m) :
    Realizes e m (Tariff.threeAddress.eval invoke value) s fun v s' m' ↦
      Visits e limits kept m₀ (place + totalWidth (ofExpr c.temporaries value).1) s' m' ∧
        Held m' (ofExpr c.temporaries value).2.1 v := by
  refine (realizes_ofExpr hinvoke hlimits houter value _ hreads hcode h).post ?_
  rintro v s' m' ⟨h', hheld⟩
  exact ⟨h.trans (h'.mono fun x hx ↦ .of_hiddenBelow (hkept x hx)), hheld⟩

theorem realizes_ofTest {condition : Expr} {target : Nat} (hreads : condition.Reads Plain)
    (hcode : LaidOut m₀.code layout place (ofExpr c.temporaries condition).1)
    (hbranch : CodeAt m₀.code (place + totalWidth (ofExpr c.temporaries condition).1)
      [(ofExpr c.temporaries condition).2.1.load, .jumpIfFalse target])
    (htarget : target ≤ m₀.code.size) (h : Visits e limits kept m₀ place s m) :
    Realizes e m (Tariff.threeAddress.eval invoke condition >>= Tariff.threeAddress.test) s
      fun b ↦ Visits e limits kept m₀
        (if b then place + totalWidth (ofExpr c.temporaries condition).1 + 2 else target) := by
  refine (realizes_value hinvoke hlimits houter hkept hreads hcode h).bind ?_
  rintro v s₁ m₁ ⟨h₁, hheld⟩
  refine (realizes_testHeld hlimits hheld hbranch htarget h₁).post ?_
  rintro b s₂ m₂ ⟨hmatch₂, hfollows₂⟩
  exact h₁.trans (.of_follows hmatch₂ hfollows₂)

theorem realizes_ofAssign {name : String} {value : Expr} (hname : Plain name)
    (hreads : value.Reads Plain)
    (hcode : LaidOut m₀.code layout place (ofStmt c (.assign name value)).1)
    (h : Visits e limits kept m₀ place s m) :
    Realizes e m (Tariff.threeAddress.exec fuel invoke (.assign name value)) s
      (Completes e limits m₀
        (Visits e limits kept m₀ (place + totalWidth (ofStmt c (.assign name value)).1))) := by
  rw [ofStmt_assign] at hcode ⊢
  obtain ⟨hvalue, hassign, -⟩ := laidOut_append.mp hcode
  rw [totalWidth_append, ← Nat.add_assoc, Tariff.exec]
  refine (realizes_value hinvoke hlimits houter hkept hreads hvalue h).bind ?_
  rintro v s₁ m₁ ⟨h₁, hheld⟩
  refine (realizes_copy hlimits (fun hx ↦ (hkept name hx).not_plain hname) hheld hassign h₁).bind ?_
  exact fun _ _ _ h₂ ↦ realizes_pure h₂

theorem realizes_ofAssignIndex {name : String} {position value : Expr} (hname : Plain name)
    (hposition : position.Reads Plain) (hreads : value.Reads Plain)
    (hcode : LaidOut m₀.code layout place (ofStmt c (.assignIndex name position value)).1)
    (h : Visits e limits kept m₀ place s m) :
    Realizes e m (Tariff.threeAddress.exec fuel invoke (.assignIndex name position value)) s
      (Completes e limits m₀ (Visits e limits kept m₀
        (place + totalWidth (ofStmt c (.assignIndex name position value)).1))) := by
  have hwidth : place + totalWidth (ofStmt c (.assignIndex name position value)).1 =
      place + totalWidth (ofExpr c.temporaries position).1 +
        totalWidth (ofExpr (ofExpr c.temporaries position).2.2 value).1 + 3 + 1 := by
    simp only [ofStmt_assignIndex, totalWidth_append, totalWidth, Op.width]
    omega
  simp only [ofStmt_assignIndex, List.append_assoc, laidOut_append] at hcode
  obtain ⟨hpositionCode, hvalueCode, hstore, -⟩ := hcode
  rw [hwidth, Tariff.exec]
  refine (realizes_lookup hname (h.passes.outer.trans houter) h.state).bind ?_
  rintro list _ _ ⟨rfl, rfl, hlist⟩
  refine (realizes_ofExpr hinvoke hlimits houter position _ hposition hpositionCode h).bind ?_
  rintro index s₁ m₁ ⟨h₁, hindex⟩
  refine (realizes_ofExpr hinvoke hlimits houter value _ hreads hvalueCode (h.andThen h₁)).bind ?_
  rintro v s₂ m₂ ⟨h₂, hv⟩
  have hle := le_ofExpr position c.temporaries
  have hpassed := h₁.trans (h₂.mono fun x hx ↦ hx.mono hle)
  have hheld : List.Forall₂ (Held m₂)
      [.variable name, (ofExpr c.temporaries position).2.1,
        (ofExpr (ofExpr c.temporaries position).2.2 value).2.1] [list, index, v] :=
    .cons (hlist.of_visits hpassed (.of_plain hname))
      (.cons (hindex.of_visits h₂ (older_ofExpr _ hposition)) (.cons hv .nil))
  have heffect := realizes_effect hlimits hheld hstore
    (h.trans (hpassed.mono fun x hx ↦ .of_hiddenBelow (hkept x hx)))
    fun hmatch hi hstack ↦ realizes_storeIndex hlimits hmatch hi hstack
  exact Realizes.bind heffect fun _ _ _ h₃ ↦ realizes_pure h₃

theorem realizes_ofAssignAttribute {object name : String} {value : Expr} (hobject : Plain object)
    (hreads : value.Reads Plain)
    (hcode : LaidOut m₀.code layout place (ofStmt c (.assignAttribute object name value)).1)
    (h : Visits e limits kept m₀ place s m) :
    Realizes e m (Tariff.threeAddress.exec fuel invoke (.assignAttribute object name value)) s
      (Completes e limits m₀ (Visits e limits kept m₀
        (place + totalWidth (ofStmt c (.assignAttribute object name value)).1))) := by
  rw [ofStmt_assignAttribute] at hcode ⊢
  obtain ⟨hvalueCode, hstore, -⟩ := laidOut_append.mp hcode
  rw [totalWidth_append, ← Nat.add_assoc, Tariff.exec]
  refine (realizes_lookup hobject (h.passes.outer.trans houter) h.state).bind ?_
  rintro o _ _ ⟨rfl, rfl, ho⟩
  refine (realizes_ofExpr hinvoke hlimits houter value _ hreads hvalueCode h).bind ?_
  rintro v s₁ m₁ ⟨h₁, hv⟩
  have hheld : List.Forall₂ (Held m₁)
      [.variable object, (ofExpr c.temporaries value).2.1] [o, v] :=
    .cons (ho.of_visits h₁ (.of_plain hobject)) (.cons hv .nil)
  have heffect := realizes_effect hlimits hheld hstore
    (h.trans (h₁.mono fun x hx ↦ .of_hiddenBelow (hkept x hx)))
    fun hmatch hi hstack ↦ realizes_storeAttribute hlimits hmatch hi hstack
  exact Realizes.bind heffect fun _ _ _ h₃ ↦ realizes_pure h₃

theorem realizes_ofPrint {value : Expr} (hreads : value.Reads Plain)
    (hcode : LaidOut m₀.code layout place (ofStmt c (.print value)).1)
    (h : Visits e limits kept m₀ place s m) :
    Realizes e m (Tariff.threeAddress.exec fuel invoke (.print value)) s
      (Completes e limits m₀
        (Visits e limits kept m₀ (place + totalWidth (ofStmt c (.print value)).1))) := by
  rw [ofStmt_print] at hcode ⊢
  obtain ⟨hvalue, hprint, -⟩ := laidOut_append.mp hcode
  rw [totalWidth_append, ← Nat.add_assoc, Tariff.exec]
  refine (realizes_value hinvoke hlimits houter hkept hreads hvalue h).bind ?_
  rintro v s₁ m₁ ⟨h₁, hv⟩
  have hheld : List.Forall₂ (Held m₁) [(ofExpr c.temporaries value).2.1] [v] := .cons hv .nil
  have heffect := realizes_effect hlimits hheld hprint h₁
    fun hmatch hi hstack ↦ realizes_print hlimits hmatch hi hstack
  exact Realizes.bind heffect fun _ _ _ h₂ ↦ realizes_pure h₂

theorem realizes_ofStmtExpr {value : Expr} (hreads : value.Reads Plain)
    (hcode : LaidOut m₀.code layout place (ofStmt c (.expr value)).1)
    (h : Visits e limits kept m₀ place s m) :
    Realizes e m (Tariff.threeAddress.exec fuel invoke (.expr value)) s
      (Completes e limits m₀
        (Visits e limits kept m₀ (place + totalWidth (ofStmt c (.expr value)).1))) := by
  rw [ofStmt_expr] at hcode ⊢
  rw [Tariff.exec]
  refine (realizes_value hinvoke hlimits houter hkept hreads hcode h).bind ?_
  rintro v s₁ m₁ ⟨h₁, -⟩
  exact realizes_pure h₁

/-! ### Conditionals and loops on a condition -/

theorem realizes_ofIfElse {condition : Expr} {body orelse : Block} {first second ops : List Op}
    {elseLabel endLabel : Nat} (hreads : condition.Reads Plain)
    (heq : ops = (ofExpr c.temporaries condition).1 ++
      .jumpIfFalse (ofExpr c.temporaries condition).2.1 elseLabel :: first ++
      .jump endLabel :: .label elseLabel :: second ++ [.label endLabel])
    (hcode : LaidOut m₀.code layout place ops)
    (hbody : ∀ {start s' m'}, LaidOut m₀.code layout start first →
      Visits e limits kept m₀ start s' m' →
      Realizes e m' (Tariff.threeAddress.execBlock fuel invoke body) s'
        (Completes e limits m₀ (Visits e limits kept m₀ (start + totalWidth first))))
    (horelse : ∀ {start s' m'}, LaidOut m₀.code layout start second →
      Visits e limits kept m₀ start s' m' →
      Realizes e m' (Tariff.threeAddress.execBlock fuel invoke orelse) s'
        (Completes e limits m₀ (Visits e limits kept m₀ (start + totalWidth second))))
    (h : Visits e limits kept m₀ place s m) :
    Realizes e m (Tariff.threeAddress.exec fuel invoke (.ifElse condition body orelse)) s
      (Completes e limits m₀ (Visits e limits kept m₀ (place + totalWidth ops))) := by
  have hwidth : place + totalWidth ops =
      place + totalWidth (ofExpr c.temporaries condition).1 + 2 + totalWidth first + 1 + 0 +
        totalWidth second := by
    simp only [heq, totalWidth_append, totalWidth, Op.width]
    omega
  simp only [heq, List.append_assoc, List.cons_append, laidOut_append, LaidOut] at hcode
  obtain ⟨htest, hbranch, -, hfirst, ⟨hjump, -⟩, -, -, helse, hsecond, -, hend, -⟩ := hcode
  obtain ⟨helsePlace, helseSize⟩ := helse elseLabel rfl
  obtain ⟨hendPlace, hendSize⟩ := hend endLabel rfl
  rw [hwidth, Tariff.exec]
  refine realizes_ifElse
    (realizes_ofTest hinvoke hlimits houter hkept hreads htest hbranch (by omega) h)
    (fun s' m' h' ↦ hbody hfirst h') (fun s' m' h' ↦ ?_) (fun s' m' h' ↦ ?_)
  · refine (realizes_jumpTo hlimits h' hjump (by omega)).post ?_
    rintro _ s₁ m₁ ⟨hmatch₁, hfollows₁⟩
    rw [hendPlace] at hfollows₁
    exact h'.trans (.of_follows hmatch₁ hfollows₁)
  · rw [helsePlace] at h'
    exact horelse hsecond h'

theorem realizes_ofWhile {condition : Expr} {body : Block} {first ops : List Op}
    {startLabel endLabel : Nat} (hreads : condition.Reads Plain)
    (heq : ops = .label startLabel :: (ofExpr c.temporaries condition).1 ++
      .jumpIfFalse (ofExpr c.temporaries condition).2.1 endLabel :: first ++
      [.jump startLabel, .label endLabel])
    (hcode : LaidOut m₀.code layout place ops)
    (hbody : ∀ {start s' m'}, LaidOut m₀.code layout start first →
      Visits e limits kept m₀ start s' m' →
      Realizes e m' (Tariff.threeAddress.execBlock fuel invoke body) s'
        (Completes e limits m₀ (Visits e limits kept m₀ (start + totalWidth first))))
    (h : Visits e limits kept m₀ place s m) :
    Realizes e m (Tariff.threeAddress.exec fuel invoke (.whileLoop condition body)) s
      (Completes e limits m₀ (Visits e limits kept m₀ (place + totalWidth ops))) := by
  have hwidth : place + totalWidth ops =
      place + 0 + totalWidth (ofExpr c.temporaries condition).1 + 2 + totalWidth first + 1 := by
    simp only [heq, totalWidth_append, totalWidth, Op.width]
    omega
  simp only [heq, List.append_assoc, List.cons_append, laidOut_append, LaidOut] at hcode
  obtain ⟨-, hstart, htest, hbranch, -, hfirst, ⟨hjump, -⟩, -, -, hend, -⟩ := hcode
  obtain ⟨hstartPlace, hstartSize⟩ := hstart startLabel rfl
  obtain ⟨hendPlace, hendSize⟩ := hend endLabel rfl
  rw [hstartPlace] at hjump
  rw [hwidth, Tariff.exec]
  refine realizes_whileLoop hlimits (fun s' m' h' ↦ ?_) (fun s' m' h' ↦ hbody hfirst h') hjump
    hstartSize fuel s m h
  have htested := realizes_ofTest hinvoke hlimits houter hkept hreads htest hbranch (by omega) h'
  rw [hendPlace] at htested
  exact htested

end

end Offside
