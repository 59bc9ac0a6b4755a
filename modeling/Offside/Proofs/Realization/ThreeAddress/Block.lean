import Offside.Proofs.Realization.ThreeAddress.Stmt

/-!
Counting loops and whole blocks in three-address form are realized. A loop keeps its counter in a
hidden variable and its bound in a temporary, and the body leaves both alone: what it binds has
higher numbers.
-/

set_option autoImplicit false
set_option relaxedAutoImplicit false

namespace Offside

open ThreeAddress
open Machine (Follows Binds Passes)
open Tariff (charge)

/-! ### Counting loops -/

section

variable {e : Executable} {limits : Limits} {layout : Nat → Nat} {kept : String → Prop}
  {m₀ m : Machine} {s : WalkState} {place n : Nat} {c : Counters} {name : String}
  {bound : Operand} {limit count : Value} (hlimits : limits.steps = none)

include hlimits

/-- The bound of a counting loop is kept in a temporary of its own. -/
theorem realizes_fixed {stop : Expr}
    (hcode : LaidOut m₀.code layout place (fixed (ofExpr n stop).2.2 (ofExpr n stop).2.1).1)
    (hheld : Held m (ofExpr n stop).2.1 limit) (h : Visits e limits kept m₀ place s m) :
    Realizes e m (charge (Tariff.threeAddress.keep stop)) s fun _ ↦
      Computes e limits (ofExpr n stop).2.2 m
        (place + totalWidth (fixed (ofExpr n stop).2.2 (ofExpr n stop).2.1).1)
        (fixed (ofExpr n stop).2.2 (ofExpr n stop).2.1).2.1 limit := by
  cases stop with
  | «variable» x =>
    have hhidden : ¬Plain (slotOfTemporary (n + 1)) :=
      not_plain_slotOfTemporary _
    refine (realizes_copyHidden hlimits hhidden hheld hcode.1 h).post ?_
    rintro _ s₁ m₁ ⟨h₁, hlimit⟩
    exact ⟨h₁.mono fun y hy ↦ hy (n + 1) (Nat.lt_succ_self n), hlimit⟩
  | _ => exact realizes_pure ⟨h.self, hheld⟩

/-- The comparison of the counter with the bound. -/
theorem realizes_ofBelow (hn : ∀ x, kept x → Older n x)
    (hbound : Older n bound.slot)
    (hcode : LaidOut m₀.code layout place (loopHead c name bound (n + 1)))
    (htarget : layout (c.labels + 2) ≤ m₀.code.size)
    (h : Counting e limits kept m₀ (loopCounter (c.loops + 1)) bound.slot limit place count s m) :
    Realizes e m (do
        charge Tariff.threeAddress.lookup
        charge Tariff.threeAddress.lookup
        let below ← Tariff.threeAddress.operate 2
          (Walk.observe fun h ↦ (h.compare .lt count limit).map Value.boolean)
        Tariff.threeAddress.test below) s fun b ↦
      Counting e limits kept m₀ (loopCounter (c.loops + 1)) bound.slot limit
        (if b then place + 6 else layout (c.labels + 2)) count := by
  obtain ⟨-, -, hcompare, -, hbranch, -, -⟩ := hcode
  rw [show Tariff.threeAddress.lookup = 0 from rfl, charge_zero, pure_bind, pure_bind]
  have hcounter : Older n (loopCounter (c.loops + 1)) :=
    .of_hiddenBelow (.counter (Nat.le_refl _))
  have hheld : List.Forall₂ (Held m) [.variable (loopCounter (c.loops + 1)), bound]
    [count, limit] := .cons h.counter (.cons h.bound .nil)
  have hbelow := realizes_result hlimits (Nat.le_refl n) hheld (h.codeAt hcompare) h.self
    fun hmatch hi hstack ↦ realizes_compare hlimits hmatch hi hstack
  refine Realizes.bind hbelow ?_
  rintro below s₁ m₁ ⟨h₁, hheld₁⟩
  have hcounting := h.of_visits h₁ hn hcounter hbound
  refine (realizes_testHeld hlimits hheld₁ hbranch htarget hcounting.toVisits).post ?_
  rintro b s₂ m₂ ⟨hmatch₂, hfollows₂⟩
  exact hcounting.of_follows hmatch₂ hfollows₂

/-- The loop variable takes the count of the turn. -/
theorem realizes_ofStoreCount (hname : Plain name) (hkept : ∀ x, kept x → ¬Plain x)
    (hbound : ¬Plain bound.slot)
    (hcode : CodeAt m₀.code place
      [.loadVariable (loopCounter (c.loops + 1)), .storeVariable name])
    (h : Counting e limits kept m₀ (loopCounter (c.loops + 1)) bound.slot limit place count s m) :
    Realizes e m (do
        charge Tariff.threeAddress.lookup
        Tariff.threeAddress.perform 1 (Walk.store name count)) s fun _ ↦
      Counting e limits kept m₀ (loopCounter (c.loops + 1)) bound.slot limit (place + 2)
        count := by
  have hheld : Held m (.variable (loopCounter (c.loops + 1))) count := h.counter
  have hcopy : Realizes e m (Tariff.threeAddress.perform 1 (Walk.store name count)) s fun _ ↦
      Visits e limits (fun x ↦ ¬Plain x) m (place + 2) :=
    realizes_copy hlimits (fun hnot ↦ hnot hname) hheld (h.codeAt hcode) h.self
  rw [show Tariff.threeAddress.lookup = 0 from rfl, charge_zero, pure_bind]
  refine hcopy.post fun _ s₁ m₁ h₁ ↦ ?_
  exact h.of_visits h₁ hkept (not_plain_loopCounter _) hbound

/-- The counter takes its next value. The bound is older than the temporaries of the body. -/
theorem realizes_ofCountUp (hn : ∀ x, kept x → Older n x)
    (hkept : ¬kept (loopCounter (c.loops + 1))) (hbound : Older n bound.slot)
    (hne : bound.slot ≠ loopCounter (c.loops + 1))
    (hcode : LaidOut m₀.code layout place (loopNext c n))
    (h : Counting e limits kept m₀ (loopCounter (c.loops + 1)) bound.slot limit place count s m) :
    Realizes e m (Tariff.threeAddress.countUp count) s
      (Counting e limits kept m₀ (loopCounter (c.loops + 1)) bound.slot limit (place + 8)) := by
  obtain ⟨hone, -, hadd, -, hcopy, -, -⟩ := hcode
  have hcounter : Older n (loopCounter (c.loops + 1)) := .of_hiddenBelow (.counter (Nat.le_refl _))
  rw [Tariff.countUp, show Tariff.threeAddress.lookup = 0 from rfl, charge_zero, pure_bind]
  refine (realizes_constant hlimits hone h.toVisits).bind ?_
  rintro _ s₁ m₁ ⟨h₁, hone₁⟩
  have hcount₁ : Held m₁ (.variable (loopCounter (c.loops + 1))) count :=
    (h₁.passes.vars _ hcounter).trans h.counter
  have hheld : List.Forall₂ (Held m₁) [.variable (loopCounter (c.loops + 1)), .temporary (n + 1)]
    [count, .number (.int 1)] := .cons hcount₁ (.cons hone₁ .nil)
  have hsum := realizes_result hlimits (Nat.le_succ n) hheld (h.codeAt hadd) h₁
    fun hmatch hi hstack ↦ realizes_arith hlimits hmatch hi hstack
  refine Realizes.bind hsum ?_
  rintro next s₂ m₂ ⟨h₂, hnext⟩
  rw [threeAddress_put]
  refine (realizes_copyHidden hlimits (not_plain_loopCounter _) hnext (h.codeAt hcopy) h₂).bind ?_
  rintro _ s₃ m₃ ⟨h₃, hcounter₃⟩
  have hpassed : Visits e limits kept m₀ (place + 8) s₃ m₃ :=
    (h.toVisits.trans (h₂.mono hn)).trans (h₃.mono fun x hx heq ↦ hkept (heq ▸ hx))
  refine realizes_pure ⟨hpassed, hcounter₃, ?_⟩
  rw [h₃.passes.vars _ hne, h₂.passes.vars _ hbound, h.bound]

end

section

variable {e : Executable} {limits : Limits} {invoke : Walk.Invocation} {layout : Nat → Nat}
  {kept : String → Prop} {m₀ m : Machine} {s : WalkState} {place fuel : Nat} {c : Counters}
  {name : String} {start stop : Expr} {body : Block} {first ops : List Op}
  (hinvoke : InvokesRealized e limits invoke) (hlimits : limits.steps = none)
  (houter : m₀.outer = none) (hkept : ∀ x, kept x → HiddenBelow c.temporaries c.loops x)

include hinvoke hlimits houter hkept

/-- The counter and the bound of a loop are computed in front of it. -/
theorem realizes_loopSetup (hstart : start.Reads Plain) (hstop : stop.Reads Plain)
    (hcode : LaidOut m₀.code layout place (loopSetup c start stop).1)
    (h : Visits e limits kept m₀ place s m) :
    Realizes e m (do
        let count ← Tariff.threeAddress.eval invoke start
        charge 2
        let limit ← Tariff.threeAddress.eval invoke stop
        charge (Tariff.threeAddress.keep stop)
        return (count, limit)) s fun p ↦
      Counting e limits kept m₀ (loopCounter (c.loops + 1)) (loopSetup c start stop).2.1.slot p.2
        (place + totalWidth (loopSetup c start stop).1) p.1 := by
  have hwidth : place + totalWidth (loopSetup c start stop).1 =
      place + totalWidth (ofExpr c.temporaries start).1 + 2 +
        totalWidth (ofExpr (ofExpr c.temporaries start).2.2 stop).1 +
        totalWidth (fixed (ofExpr (ofExpr c.temporaries start).2.2 stop).2.2
          (ofExpr (ofExpr c.temporaries start).2.2 stop).2.1).1 := by
    simp only [loopSetup, totalWidth_append, totalWidth, Op.width]
    omega
  simp only [loopSetup, List.append_assoc, List.cons_append, laidOut_append, LaidOut] at hcode
  obtain ⟨hstartCode, hcopy, -, hstopCode, hfixed⟩ := hcode
  have hle := le_ofExpr start c.temporaries
  have holder : ∀ x, kept x → Older (ofExpr c.temporaries start).2.2 x :=
    fun x hx ↦ (Older.of_hiddenBelow (hkept x hx)).mono hle
  have hle' := le_ofExpr stop (ofExpr c.temporaries start).2.2
  have hcounter {n : Nat} : Older n (loopCounter (c.loops + 1)) :=
    .of_hiddenBelow (.counter (Nat.le_refl _))
  have hne : ∀ x, kept x → x ≠ loopCounter (c.loops + 1) := fun x hx ↦
    ((hkept x hx).ne_counter (Nat.lt_succ_self c.loops)).symm
  rw [hwidth]
  refine (realizes_value hinvoke hlimits houter hkept hstart hstartCode h).bind ?_
  rintro count s₁ m₁ ⟨h₁, hheld₁⟩
  refine (realizes_copyHidden hlimits (not_plain_loopCounter _) hheld₁ hcopy h₁).bind ?_
  rintro _ s₂ m₂ ⟨h₂, hcount⟩
  have hpassed₂ := h₁.trans (h₂.mono hne)
  refine (realizes_ofExpr hinvoke hlimits houter stop _ hstop hstopCode hpassed₂).bind ?_
  rintro limit s₃ m₃ ⟨h₃, hheld₃⟩
  have hpassed₃ := hpassed₂.trans (h₃.mono holder)
  refine (realizes_fixed hlimits hfixed hheld₃ hpassed₃).bind ?_
  rintro _ s₄ m₄ ⟨h₄, hlimit⟩
  refine realizes_pure ⟨hpassed₃.trans (h₄.mono fun x hx ↦ (holder x hx).mono hle'), ?_, hlimit⟩
  rw [h₄.passes.vars _ hcounter, h₃.passes.vars _ hcounter, hcount]

omit hinvoke in
/-- The turns of a counting loop. Its bound is older than the temporaries of its body. -/
theorem realizes_ofTurns {b n k : Nat} {limit count : Value} (hname : Plain name)
    (hn : c.temporaries ≤ n) (hb : b ≤ n) (hk : n + 1 ≤ k)
    (hcode : LaidOut m₀.code layout place
      (loopHead c name (.temporary b) (n + 1) ++ first ++ loopNext c k))
    (hbody : ∀ {p s' m'}, LaidOut m'.code layout p first → m'.outer = none →
      Visits e limits (HiddenBelow (n + 1) (c.loops + 1)) m' p s' m' →
      Realizes e m' (Tariff.threeAddress.execBlock fuel invoke body) s' (Completes e limits m'
        (Visits e limits (HiddenBelow (n + 1) (c.loops + 1)) m' (p + totalWidth first))))
    (h : Counting e limits kept m₀ (loopCounter (c.loops + 1)) (Operand.temporary b).slot limit
      place count s m) :
    Realizes e m (Walk.iterate (Tariff.threeAddress.forTurn name limit
        (Tariff.threeAddress.execBlock fuel invoke body)) fuel count) s
      (Completes e limits m₀ (Visits e limits kept m₀ (place + 8 + totalWidth first + 9))) := by
  simp only [List.append_assoc, laidOut_append] at hcode
  obtain ⟨hhead, hfirst, hnext⟩ := hcode
  obtain ⟨-, hstartLabel, -, -, -, -, hstore, -⟩ := id hhead
  obtain ⟨-, -, -, -, -, -, ⟨hjump, -⟩, -, -, hendLabel, -⟩ := id hnext
  obtain ⟨hstartPlace, hstartSize⟩ := hstartLabel _ rfl
  obtain ⟨hendPlace, hendSize⟩ := hendLabel _ rfl
  rw [hstartPlace] at hjump
  have holder {n' : Nat} (hn : c.temporaries ≤ n') : ∀ x, kept x → Older n' x :=
    fun x hx ↦ (Older.of_hiddenBelow (hkept x hx)).mono hn
  have hbound {n' : Nat} (hn : n ≤ n') : Older n' (Operand.temporary b).slot :=
    older_slotOfTemporary (Nat.le_trans hb hn)
  have hhidden : ¬Plain (Operand.temporary b).slot := not_plain_slotOfTemporary b
  have hne : (Operand.temporary b).slot ≠ loopCounter (c.loops + 1) :=
    (loopCounter_ne_slotOfTemporary _ _).symm
  have hnk : n ≤ k := Nat.le_trans (Nat.le_succ n) hk
  refine realizes_forLoop hlimits (fun count' s' m' h' ↦ ?_)
    (fun count' s' m' ↦ realizes_ofStoreCount hlimits hname (fun x hx ↦ (hkept x hx).not_plain)
      hhidden hstore)
    (fun count' s' m' h' ↦ ?_)
    (fun count' s' m' ↦ realizes_ofCountUp hlimits (holder (Nat.le_trans hn hnk))
      (fun hx ↦ (hkept _ hx).ne_counter (Nat.lt_succ_self _) rfl) (hbound hnk) hne hnext)
    hjump hstartSize fuel count s m h
  · have hbelow := realizes_ofBelow hlimits (holder hn) (hbound (Nat.le_refl n)) hhead
      (hendPlace ▸ hendSize) h'
    rw [hendPlace] at hbelow
    exact hbelow
  · refine (hbody (h'.laidOut hfirst) (h'.passes.outer.trans houter) h'.self).post ?_
    intro c' s'' m'' hc
    refine hc.of_visits h'.toVisits fun hvisits ↦ ?_
    have hloops : ∀ x, kept x → HiddenBelow (n + 1) (c.loops + 1) x :=
      fun x hx ↦ (hkept x hx).mono (Nat.le_succ_of_le hn) (Nat.le_succ c.loops)
    exact h'.of_visits hvisits hloops (.counter (Nat.le_refl _))
      (.temporary (Nat.le_succ_of_le hb))

theorem realizes_ofFor {k : Nat} (hname : Plain name) (hstart : start.Reads Plain)
    (hstop : stop.Reads Plain) (hk : (loopSetup c start stop).2.2 + 1 ≤ k)
    (heq : ops = (loopSetup c start stop).1 ++
      loopHead c name (loopSetup c start stop).2.1 ((loopSetup c start stop).2.2 + 1) ++ first ++
      loopNext c k)
    (hcode : LaidOut m₀.code layout place ops)
    (hbody : ∀ {p s' m'}, LaidOut m'.code layout p first → m'.outer = none →
      Visits e limits (HiddenBelow ((loopSetup c start stop).2.2 + 1) (c.loops + 1)) m' p s' m' →
      Realizes e m' (Tariff.threeAddress.execBlock fuel invoke body) s' (Completes e limits m'
        (Visits e limits (HiddenBelow ((loopSetup c start stop).2.2 + 1) (c.loops + 1)) m'
          (p + totalWidth first))))
    (h : Visits e limits kept m₀ place s m) :
    Realizes e m (Tariff.threeAddress.exec fuel invoke (.forRange name start stop body)) s
      (Completes e limits m₀ (Visits e limits kept m₀ (place + totalWidth ops))) := by
  obtain ⟨b, hb, hbn⟩ := loopSetup_bound c start stop
  have hwidth : place + totalWidth ops =
      place + totalWidth (loopSetup c start stop).1 + 8 + totalWidth first + 9 := by
    simp only [heq, totalWidth_append, loopHead, loopNext, totalWidth, Op.width]
    omega
  rw [heq, List.append_assoc, List.append_assoc, laidOut_append, ← List.append_assoc, hb] at hcode
  have hsetup := realizes_loopSetup hinvoke hlimits houter hkept hstart hstop hcode.1 h
  rw [hb] at hsetup
  have hexec : Tariff.threeAddress.exec fuel invoke (.forRange name start stop body) =
      ((do
        let count ← Tariff.threeAddress.eval invoke start
        charge 2
        let limit ← Tariff.threeAddress.eval invoke stop
        charge (Tariff.threeAddress.keep stop)
        return (count, limit)) >>= fun p ↦
      Walk.iterate (Tariff.threeAddress.forTurn name p.2
        (Tariff.threeAddress.execBlock fuel invoke body)) fuel p.1) := by
    simp only [Tariff.exec, threeAddress_put, bind_assoc, pure_bind]
  rw [hexec, hwidth]
  refine hsetup.bind fun p s₁ m₁ hcounting ↦ ?_
  exact realizes_ofTurns hlimits houter hkept hname (le_loopSetup c start stop) hbn hk hcode.2 hbody
    hcounting

end

/-! ### Whole blocks -/

section

variable {e : Executable} {limits : Limits} {invoke : Walk.Invocation} {layout : Nat → Nat}

mutual

/-- A machine in front of the operations of a statement follows its metered walk. The statement
keeps the hidden variables that have been counted before. -/
theorem realizes_ofStmt (hinvoke : InvokesRealized e limits invoke)
    (hlimits : limits.steps = none) (fuel : Nat) :
    ∀ (st : Stmt) {c : Counters} {kept : String → Prop} {m₀ m : Machine} {s : WalkState}
      {place : Nat}, st.Scoped false Plain → Provides e (definitionsOfStmt st) →
      m₀.outer = none → (∀ x, kept x → HiddenBelow c.temporaries c.loops x) →
      LaidOut m₀.code layout place (ofStmt c st).1 → Visits e limits kept m₀ place s m →
      Realizes e m (Tariff.threeAddress.exec fuel invoke st) s (Completes e limits m₀
        (Visits e limits kept m₀ (place + totalWidth (ofStmt c st).1)))
  | .assign name value, c, kept, m₀, m, s, place, hs, hprovides, houter, hkept, hcode, h =>
    realizes_ofAssign hinvoke hlimits houter hkept hs.1 hs.2 hcode h
  | .assignIndex name position value, c, kept, m₀, m, s, place, hs, hprovides, houter, hkept, hcode,
      h =>
    realizes_ofAssignIndex hinvoke hlimits houter hkept hs.1 hs.2.1 hs.2.2 hcode h
  | .assignAttribute object name value, c, kept, m₀, m, s, place, hs, hprovides, houter, hkept,
      hcode, h =>
    realizes_ofAssignAttribute hinvoke hlimits houter hkept hs.1 hs.2 hcode h
  | .print value, c, kept, m₀, m, s, place, hs, hprovides, houter, hkept, hcode, h =>
    realizes_ofPrint hinvoke hlimits houter hkept hs hcode h
  | .expr value, c, kept, m₀, m, s, place, hs, hprovides, houter, hkept, hcode, h =>
    realizes_ofStmtExpr hinvoke hlimits houter hkept hs hcode h
  | .return none, c, kept, m₀, m, s, place, hs, hprovides, houter, hkept, hcode, h =>
    (Bool.false_ne_true hs).elim
  | .return (some value), c, kept, m₀, m, s, place, hs, hprovides, houter, hkept, hcode, h =>
    (Bool.false_ne_true hs.1).elim
  | .pass, c, kept, m₀, m, s, place, hs, hprovides, houter, hkept, hcode, h => realizes_pure h
  | .define routine, c, kept, m₀, m, s, place, hs, hprovides, houter, hkept, hcode, h => by
    obtain ⟨rc, hrc, hcompiled⟩ := hprovides.functions routine (List.mem_singleton.mpr rfl)
    obtain ⟨⟨hdefine, -⟩, -, -⟩ := hcode
    rw [Tariff.exec, ← bind_assoc]
    refine (Realizes.behind h.here (realizes_defineFunction hlimits h.state
      (h.here.instr (h.instr hdefine)) hrc hcompiled)).bind ?_
    rintro _ s₁ m₁ ⟨hmatch₁, hfollows₁⟩
    exact realizes_pure (h.trans (.of_follows hmatch₁ hfollows₁))
  | .defineClass definition, c, kept, m₀, m, s, place, hs, hprovides, houter, hkept, hcode, h => by
    obtain ⟨cc, hcc, hcompiled⟩ := hprovides.classes definition (List.mem_singleton.mpr rfl)
    obtain ⟨⟨hdefine, -⟩, -, -⟩ := hcode
    rw [Tariff.exec, ← bind_assoc]
    refine (Realizes.behind h.here (realizes_defineClass hlimits h.state
      (h.here.instr (h.instr hdefine)) hcc hcompiled)).bind ?_
    rintro _ s₁ m₁ ⟨hmatch₁, hfollows₁⟩
    exact realizes_pure (h.trans (.of_follows hmatch₁ hfollows₁))
  | .ifElse condition body orelse, c, kept, m₀, m, s, place, hs, hprovides, houter, hkept, hcode,
      h => by
    rw [ofStmt_ifElse] at hcode ⊢
    have hbodyProvides : Provides e (definitions body) :=
      hprovides.mono (fun _ hr ↦ List.mem_append_left _ hr) fun _ hc ↦ List.mem_append_left _ hc
    have horelseProvides : Provides e (definitions orelse) :=
      hprovides.mono (fun _ hr ↦ List.mem_append_right _ hr) fun _ hc ↦ List.mem_append_right _ hc
    have htest := le_ofExpr condition c.temporaries
    have hbody := le_ofBlock body
      { c with temporaries := (ofExpr c.temporaries condition).2.2, labels := c.labels + 2 }
    exact realizes_ofIfElse hinvoke hlimits houter hkept hs.1 rfl hcode
      (fun hfirst h' ↦ realizes_ofBlock hinvoke hlimits fuel body hs.2.1 hbodyProvides houter
        (fun x hx ↦ (hkept x hx).mono htest (Nat.le_refl _)) hfirst h')
      (fun hsecond h' ↦ realizes_ofBlock hinvoke hlimits fuel orelse hs.2.2 horelseProvides houter
        (fun x hx ↦ (hkept x hx).mono (Nat.le_trans htest hbody.temporaries) hbody.loops) hsecond
        h') h
  | .whileLoop condition body, c, kept, m₀, m, s, place, hs, hprovides, houter, hkept, hcode,
      h => by
    rw [ofStmt_whileLoop] at hcode ⊢
    exact realizes_ofWhile hinvoke hlimits houter hkept hs.1 rfl hcode
      (fun hfirst h' ↦ realizes_ofBlock hinvoke hlimits fuel body hs.2 hprovides houter
        (fun x hx ↦ (hkept x hx).mono (le_ofExpr condition _) (Nat.le_refl _)) hfirst h') h
  | .forRange name start stop body, c, kept, m₀, m, s, place, hs, hprovides, houter, hkept, hcode,
      h => by
    rw [ofStmt_forRange] at hcode ⊢
    have hbody := le_ofBlock body ⟨(loopSetup c start stop).2.2 + 1, c.labels + 2, c.loops + 1⟩
    exact realizes_ofFor hinvoke hlimits houter hkept hs.1 hs.2.1 hs.2.2.1 hbody.temporaries rfl
      hcode
      (fun hfirst houter' h' ↦ realizes_ofBlock hinvoke hlimits fuel body
        (blockScoped_mono (Declaring.plain hs.1) hs.2.2.2) hprovides houter' (fun _ hx ↦ hx) hfirst
        h') h

theorem realizes_ofBlock (hinvoke : InvokesRealized e limits invoke)
    (hlimits : limits.steps = none) (fuel : Nat) :
    ∀ (block : List Stmt) {c : Counters} {kept : String → Prop} {m₀ m : Machine} {s : WalkState}
      {place : Nat}, BlockScoped false Plain block → Provides e (definitions block) →
      m₀.outer = none → (∀ x, kept x → HiddenBelow c.temporaries c.loops x) →
      LaidOut m₀.code layout place (ofBlock c block).1 → Visits e limits kept m₀ place s m →
      Realizes e m (Tariff.threeAddress.execBlock fuel invoke block) s (Completes e limits m₀
        (Visits e limits kept m₀ (place + totalWidth (ofBlock c block).1)))
  | [], c, kept, m₀, m, s, place, hs, hprovides, houter, hkept, hcode, h => realizes_pure h
  | st :: ss, c, kept, m₀, m, s, place, hs, hprovides, houter, hkept, hcode, h => by
    rw [ofBlock_cons] at hcode ⊢
    obtain ⟨hfirst, hrest⟩ := laidOut_append.mp hcode
    rw [Tariff.execBlock, totalWidth_append, ← Nat.add_assoc]
    have hfirstProvides : Provides e (definitionsOfStmt st) :=
      hprovides.mono (fun _ hr ↦ List.mem_append_left _ hr) fun _ hc ↦ List.mem_append_left _ hc
    have hrestProvides : Provides e (definitions ss) :=
      hprovides.mono (fun _ hr ↦ List.mem_append_right _ hr) fun _ hc ↦ List.mem_append_right _ hc
    have hle := le_ofStmt st c
    refine realizes_then (realizes_ofStmt hinvoke hlimits fuel st hs.1 hfirstProvides houter hkept
      hfirst h) fun s₁ m₁ h₁ ↦ ?_
    exact realizes_ofBlock hinvoke hlimits fuel ss
      (blockScoped_mono (Stmt.declared_plain hs.1) hs.2) hrestProvides houter
      (fun x hx ↦ (hkept x hx).mono hle.temporaries hle.loops) hrest h₁

end

end

end Offside
