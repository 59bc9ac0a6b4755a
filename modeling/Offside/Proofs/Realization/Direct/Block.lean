import Offside.Proofs.Realization.Direct.Stmt

/-!
Counting loops and whole blocks that are lowered directly are realized. The code of a statement
leaves the stack as it was, and the hidden variables of the loops around it.
-/

set_option autoImplicit false
set_option relaxedAutoImplicit false

namespace Offside

open ThreeAddress (definitions definitionsOfStmt)
open Machine (Follows Binds Passes)
open Tariff (charge)

/-! ### Counting loops -/

section

variable {e : Executable} {limits : Limits} {kept : String → Prop} {m₀ m : Machine}
  {s : WalkState} {place loop target : Nat} {name : String} {limit count : Value}
  (hlimits : limits.steps = none)

include hlimits

/-- The comparison of the counter with the bound. -/
theorem realizes_below (hcode : CodeAt m₀.code place (forHead loop name target))
    (htarget : target ≤ m₀.code.size)
    (h : Counting e limits kept m₀ (loopCounter loop) (loopBound loop) limit place count s m) :
    Realizes e m (do
        charge Tariff.direct.lookup
        charge Tariff.direct.lookup
        let below ← Tariff.direct.operate 2
          (Walk.observe fun h ↦ (h.compare .lt count limit).map Value.boolean)
        Tariff.direct.test below) s fun b ↦
      Counting e limits kept m₀ (loopCounter loop) (loopBound loop) limit
        (if b then place + 4 else target) count := by
  obtain ⟨hcounter, hbound, hcompare, hbranch, -⟩ := hcode
  refine (Realizes.behind h.here (realizes_loadVariable hlimits h.state
    (h.here.instr (h.instr hcounter)) (Machine.lookup_of_vars h.counter) rfl)).bind ?_
  rintro _ s₁ m₁ ⟨hmatch₁, hfollows₁⟩
  have hlimit : m₁.lookup (loopBound loop) = some limit := by
    rw [hfollows₁.lookup, Machine.lookup_of_vars h.bound]
  refine (Realizes.behind hfollows₁ (realizes_loadVariable hlimits hmatch₁
    (hfollows₁.instr (h.instr hbound)) hlimit hfollows₁.stack)).bind ?_
  rintro _ s₂ m₂ ⟨hmatch₂, hfollows₂⟩
  rw [direct_operate]
  refine (Realizes.behind hfollows₂ (realizes_compare hlimits hmatch₂
    (hfollows₂.instr (h.instr hcompare)) hfollows₂.stack)).bind ?_
  rintro below s₃ m₃ ⟨hmatch₃, hfollows₃⟩
  rw [Tariff.test, direct_perform]
  refine (realizes_branch hlimits hmatch₃ hfollows₃ (h.instr hbranch) (h.le_size htarget)).post ?_
  rintro b s₄ m₄ ⟨hmatch₄, hfollows₄⟩
  exact h.of_follows hmatch₄ hfollows₄

/-- The loop variable takes the count of the turn. -/
theorem realizes_storeCount (hname : Plain name) (hkept : ∀ x, kept x → ¬Plain x)
    (hcode : CodeAt m₀.code place [.loadVariable (loopCounter loop), .storeVariable name])
    (h : Counting e limits kept m₀ (loopCounter loop) (loopBound loop) limit place count s m) :
    Realizes e m (do
        charge Tariff.direct.lookup
        Tariff.direct.perform 1 (Walk.store name count)) s fun _ ↦
      Counting e limits kept m₀ (loopCounter loop) (loopBound loop) limit (place + 2) count := by
  obtain ⟨hcounter, hstore, -⟩ := hcode
  refine (Realizes.behind h.here (realizes_loadVariable hlimits h.state
    (h.here.instr (h.instr hcounter)) (Machine.lookup_of_vars h.counter) rfl)).bind ?_
  rintro _ s₁ m₁ ⟨hmatch₁, hfollows₁⟩
  rw [direct_perform]
  refine (realizes_store hlimits hmatch₁ (hfollows₁.instr (h.instr hstore))
    hfollows₁.stack).post ?_
  rintro _ s₂ m₂ ⟨hmatch₂, hbinds⟩
  have hvisits : Visits e limits (fun x ↦ ¬Plain x) m (place + 2) s₂ m₂ :=
    .of_binds hmatch₂ hfollows₁ hbinds fun hnot ↦ hnot hname
  exact h.of_visits hvisits hkept (not_plain_loopCounter loop) (not_plain_loopBound loop)

/-- The counter takes its next value. -/
theorem realizes_countUp (hkept : ¬kept (loopCounter loop))
    (hcode : CodeAt m₀.code place (forNext loop target))
    (h : Counting e limits kept m₀ (loopCounter loop) (loopBound loop) limit place count s m) :
    Realizes e m (Tariff.direct.countUp count) s
      (Counting e limits kept m₀ (loopCounter loop) (loopBound loop) limit (place + 4)) := by
  obtain ⟨hcounter, hone, hadd, hstore, -⟩ := hcode
  have hhidden : ¬Plain (loopCounter loop) := not_plain_loopCounter loop
  rw [Tariff.countUp]
  refine (Realizes.behind h.here (realizes_loadVariable hlimits h.state
    (h.here.instr (h.instr hcounter)) (Machine.lookup_of_vars h.counter) rfl)).bind ?_
  rintro _ s₁ m₁ ⟨hmatch₁, hfollows₁⟩
  refine (Realizes.behind hfollows₁ (realizes_loadConstant hlimits hmatch₁
    (hfollows₁.instr (h.instr hone)) hfollows₁.stack)).bind ?_
  rintro _ s₂ m₂ ⟨hmatch₂, hfollows₂⟩
  rw [direct_operate]
  refine (Realizes.behind hfollows₂ (realizes_arith hlimits hmatch₂
    (hfollows₂.instr (h.instr hadd)) hfollows₂.stack)).bind ?_
  rintro next s₃ m₃ ⟨hmatch₃, hfollows₃⟩
  rw [direct_perform]
  refine (realizes_storeHidden hlimits hmatch₃ hhidden (hfollows₃.instr (h.instr hstore))
    hfollows₃.stack).bind ?_
  rintro _ s₄ m₄ ⟨hmatch₄, hbinds⟩
  refine realizes_pure ⟨h.toVisits.trans (.of_binds hmatch₄ hfollows₃ hbinds hkept), ?_, ?_⟩
  · rw [hbinds.vars, Bindings.get?_set_self]
  · rw [hbinds.vars, hfollows₃.vars,
      Bindings.get?_set_of_ne _ (loopCounter_ne_loopBound loop loop), h.bound]

end

section

variable {e : Executable} {limits : Limits} {invoke : Walk.Invocation} {kept : String → Prop}
  {m₀ m : Machine} {s : WalkState} {place fuel loops top : Nat} {name : String}
  {first stop : Expr} {body : Block} {bodyCode code : List Instr}

/-- The counter and the bound of a loop are computed in front of it. -/
theorem realizes_forSetup (hinvoke : InvokesRealized e limits invoke)
    (hlimits : limits.steps = none) (hfirst : first.Reads Plain) (hstop : stop.Reads Plain)
    (hkept : ∀ x, kept x → HiddenBelow 0 loops x)
    (hcode : CodeAt m₀.code place (forSetup (loops + 1) first stop))
    (h : Visits e limits kept m₀ place s m) :
    Realizes e m (do
        let count ← (do let v ← Tariff.direct.eval invoke first; charge 1; return v)
        let limit ← (do let v ← Tariff.direct.eval invoke stop; charge 1; return v)
        return (count, limit)) s fun p ↦
      Counting e limits kept m₀ (loopCounter (loops + 1)) (loopBound (loops + 1)) p.2
        (place + (forSetup (loops + 1) first stop).length) p.1 := by
  have hwidth : place + (forSetup (loops + 1) first stop).length =
      place + first.code.length + 1 + stop.code.length + 1 := by
    simp only [forSetup, List.length_append, List.length_cons, List.length_nil]
    omega
  rw [forSetup, List.append_assoc, codeAt_append, List.cons_append, CodeAt, codeAt_append] at hcode
  obtain ⟨hfirstCode, hstoreFirst, hstopCode, hstoreStop, -⟩ := hcode
  have hcounter : ∀ x, kept x → x ≠ loopCounter (loops + 1) := fun x hx ↦
    ((hkept x hx).ne_counter (Nat.lt_succ_self loops)).symm
  have hbound : ∀ x, kept x → x ≠ loopBound (loops + 1) := fun x hx ↦
    ((hkept x hx).ne_bound (Nat.lt_succ_self loops)).symm
  rw [hwidth]
  refine (realizes_evalInto hinvoke hlimits hfirst hfirstCode hstoreFirst
    (not_plain_loopCounter _) h).bind ?_
  rintro count s₁ m₁ ⟨h₁, hcount⟩
  have hkept₁ := h.trans (h₁.mono hcounter)
  refine (realizes_evalInto hinvoke hlimits hstop hstopCode hstoreStop (not_plain_loopBound _)
    hkept₁).bind ?_
  rintro limit s₂ m₂ ⟨h₂, hlimit⟩
  have hcount₂ := (h₂.passes.vars _ (loopCounter_ne_loopBound _ _)).trans hcount
  exact realizes_pure ⟨hkept₁.trans (h₂.mono hbound), hcount₂, hlimit⟩

/-- The turns of a counting loop. The loop owns the variables of its number, and those of the loops
around it have lower ones. -/
theorem realizes_turns {limit count : Value} (hlimits : limits.steps = none) (hname : Plain name)
    (hkept : ∀ x, kept x → HiddenBelow 0 loops x)
    (hcode : CodeAt m₀.code top (forHead (loops + 1) name (top + 6 + bodyCode.length + 5) ++
      bodyCode ++ forNext (loops + 1) top))
    (hbody : ∀ s' m', CodeAt m'.code (top + 6) bodyCode →
      Visits e limits (HiddenBelow 0 (loops + 1)) m' (top + 6) s' m' →
      Realizes e m' (Tariff.direct.execBlock fuel invoke body) s' (Completes e limits m'
        (Visits e limits (HiddenBelow 0 (loops + 1)) m' (top + 6 + bodyCode.length))))
    (h : Counting e limits kept m₀ (loopCounter (loops + 1)) (loopBound (loops + 1)) limit top
      count s m) :
    Realizes e m (Walk.iterate
        (Tariff.direct.forTurn name limit (Tariff.direct.execBlock fuel invoke body)) fuel count) s
      (Completes e limits m₀ (Visits e limits kept m₀ (top + 6 + bodyCode.length + 5))) := by
  have hsize := hcode.le_size (List.append_ne_nil_of_right_ne_nil _ (List.cons_ne_nil _ _))
  have hwidth : top + (forHead (loops + 1) name (top + 6 + bodyCode.length + 5) ++
      bodyCode ++ forNext (loops + 1) top).length = top + 6 + bodyCode.length + 5 := by
    simp only [List.length_append, forHead, forNext, List.length_cons, List.length_nil]
    omega
  rw [hwidth] at hsize
  rw [List.append_assoc, codeAt_append, codeAt_append] at hcode
  obtain ⟨hhead, hbodyCode, hnext⟩ := hcode
  obtain ⟨-, -, -, -, hload, hstore, -⟩ := id hhead
  obtain ⟨-, -, -, -, hjump, -⟩ := id hnext
  have hcounter : ¬kept (loopCounter (loops + 1)) := fun hx ↦
    (hkept _ hx).ne_counter (Nat.lt_succ_self loops) rfl
  refine realizes_forLoop hlimits (fun count' s' m' ↦ realizes_below hlimits hhead hsize)
    (fun count' s' m' ↦ realizes_storeCount hlimits hname (fun x hx ↦ (hkept x hx).not_plain)
      ⟨hload, hstore, trivial⟩) (fun count' s' m' h' ↦ ?_)
    (fun count' s' m' ↦ realizes_countUp hlimits hcounter hnext) hjump (by omega) fuel count s m h
  refine (hbody s' m' (h'.codeAt hbodyCode) h'.self).post fun c s'' m'' hc ↦ ?_
  refine hc.of_visits h'.toVisits fun hvisits ↦ ?_
  exact h'.of_visits hvisits (fun x hx ↦ (hkept x hx).mono (Nat.le_refl 0) (Nat.le_succ loops))
    (.counter (Nat.le_refl _)) (.bound (Nat.le_refl _))

/-- A counting loop keeps the variables of the loops around it. -/
theorem realizes_for (hinvoke : InvokesRealized e limits invoke) (hlimits : limits.steps = none)
    (hname : Plain name) (hfirst : first.Reads Plain) (hstop : stop.Reads Plain)
    (hkept : ∀ x, kept x → HiddenBelow 0 loops x)
    (htop : top = place + (forSetup (loops + 1) first stop).length)
    (heq : code = forSetup (loops + 1) first stop ++
      forHead (loops + 1) name (top + 6 + bodyCode.length + 5) ++ bodyCode ++
      forNext (loops + 1) top)
    (hcode : CodeAt m₀.code place code)
    (hbody : ∀ s' m', CodeAt m'.code (top + 6) bodyCode →
      Visits e limits (HiddenBelow 0 (loops + 1)) m' (top + 6) s' m' →
      Realizes e m' (Tariff.direct.execBlock fuel invoke body) s' (Completes e limits m'
        (Visits e limits (HiddenBelow 0 (loops + 1)) m' (top + 6 + bodyCode.length))))
    (h : Visits e limits kept m₀ place s m) :
    Realizes e m (Tariff.direct.exec fuel invoke (.forRange name first stop body)) s
      (Completes e limits m₀ (Visits e limits kept m₀ (place + code.length))) := by
  have hplace : place + code.length = top + 6 + bodyCode.length + 5 := by
    simp only [heq, htop, List.length_append, forHead, forNext, List.length_cons, List.length_nil]
    omega
  rw [heq, List.append_assoc, List.append_assoc, codeAt_append, ← htop,
    ← List.append_assoc] at hcode
  have hsetup := realizes_forSetup hinvoke hlimits hfirst hstop hkept hcode.1 h
  rw [← htop] at hsetup
  have hexec : Tariff.direct.exec fuel invoke (.forRange name first stop body) =
      ((do
        let count ← (do let v ← Tariff.direct.eval invoke first; charge 1; return v)
        let limit ← (do let v ← Tariff.direct.eval invoke stop; charge 1; return v)
        return (count, limit)) >>= fun p ↦
        Walk.iterate (Tariff.direct.forTurn name p.2 (Tariff.direct.execBlock fuel invoke body))
          fuel p.1) := by
    simp only [Tariff.exec, direct_perform, bind_assoc, pure_bind]
    rfl
  rw [hexec, hplace]
  refine hsetup.bind fun p s₁ m₁ hcounting ↦ ?_
  exact realizes_turns hlimits hname hkept hcode.2 hbody hcounting

end

/-! ### Whole blocks -/

section

variable {e : Executable} {limits : Limits} {invoke : Walk.Invocation}

mutual

/-- A machine in front of the code of a statement follows its metered walk. The statement keeps the
hidden variables of the loops around it. -/
theorem realizes_exec (hinvoke : InvokesRealized e limits invoke) (hlimits : limits.steps = none)
    (fuel : Nat) {i : Bool} : ∀ (st : Stmt) {g : Gathered} {kept : String → Prop} {m₀ m : Machine}
      {s : WalkState} {place : Nat}, st.Scoped i Plain → Provides e (definitionsOfStmt st) →
      (∀ x, kept x → HiddenBelow 0 g.loops x) → CodeAt m₀.code place (st.code place g).1 →
      Visits e limits kept m₀ place s m →
      Realizes e m (Tariff.direct.exec fuel invoke st) s
        (Completes e limits m₀ (Visits e limits kept m₀ (place + (st.code place g).1.length)))
  | .assign name value, g, kept, m₀, m, s, place, hs, hprovides, hkept, hcode, h => by
    rw [Stmt.code, List.length_append, ← Nat.add_assoc]
    exact realizes_assign hinvoke hlimits (fun hx ↦ (hkept name hx).not_plain hs.1) hs.2 hcode h
  | .assignIndex name position value, g, kept, m₀, m, s, place, hs, hprovides, hkept, hcode, h => by
    have hplace : place + ((Stmt.assignIndex name position value).code place g).1.length =
        place + 1 + position.code.length + value.code.length + 1 := by
      simp only [Stmt.code, List.length_append, List.length_cons, List.length_nil]
      omega
    rw [hplace]
    exact realizes_assignIndex hinvoke hlimits hs.1 hs.2.1 hs.2.2 hcode h
  | .assignAttribute object name value, g, kept, m₀, m, s, place, hs, hprovides, hkept, hcode,
      h => by
    have hplace : place + ((Stmt.assignAttribute object name value).code place g).1.length =
        place + 1 + value.code.length + 1 := by
      simp only [Stmt.code, List.length_append, List.length_cons, List.length_nil]
      omega
    rw [hplace]
    exact realizes_assignAttribute hinvoke hlimits hs.1 hs.2 hcode h
  | .print value, g, kept, m₀, m, s, place, hs, hprovides, hkept, hcode, h => by
    rw [Stmt.code, List.length_append, ← Nat.add_assoc]
    exact realizes_printValue hinvoke hlimits hs hcode h
  | .expr value, g, kept, m₀, m, s, place, hs, hprovides, hkept, hcode, h => by
    rw [Stmt.code, List.length_append, ← Nat.add_assoc]
    exact realizes_expr hinvoke hlimits hs hcode h
  | .return none, g, kept, m₀, m, s, place, hs, hprovides, hkept, hcode, h =>
    realizes_returnNone hlimits hcode h
  | .return (some value), g, kept, m₀, m, s, place, hs, hprovides, hkept, hcode, h =>
    realizes_return hinvoke hlimits hs.2 hcode h
  | .pass, g, kept, m₀, m, s, place, hs, hprovides, hkept, hcode, h => realizes_pure h
  | .define routine, g, kept, m₀, m, s, place, hs, hprovides, hkept, hcode, h => by
    obtain ⟨rc, hrc, hcompiled⟩ := hprovides.functions routine (List.mem_singleton.mpr rfl)
    rw [Tariff.exec, ← bind_assoc]
    refine (Realizes.behind h.here (realizes_defineFunction hlimits h.state
      (h.here.instr (h.instr hcode.1)) hrc hcompiled)).bind ?_
    rintro _ s₁ m₁ ⟨hmatch₁, hfollows₁⟩
    exact realizes_pure (h.trans (.of_follows hmatch₁ hfollows₁))
  | .defineClass definition, g, kept, m₀, m, s, place, hs, hprovides, hkept, hcode, h => by
    obtain ⟨cc, hcc, hcompiled⟩ := hprovides.classes definition (List.mem_singleton.mpr rfl)
    rw [Tariff.exec, ← bind_assoc]
    refine (Realizes.behind h.here (realizes_defineClass hlimits h.state
      (h.here.instr (h.instr hcode.1)) hcc hcompiled)).bind ?_
    rintro _ s₁ m₁ ⟨hmatch₁, hfollows₁⟩
    exact realizes_pure (h.trans (.of_follows hmatch₁ hfollows₁))
  | .ifElse condition body [], g, kept, m₀, m, s, place, hs, hprovides, hkept, hcode, h => by
    rw [code_ifThen] at hcode ⊢
    have hbody : Provides e (definitions body) :=
      hprovides.mono (fun _ hr ↦ List.mem_append_left _ hr) fun _ hc ↦ List.mem_append_left _ hc
    exact realizes_ifThen hinvoke hlimits hs.1 rfl hcode
      (fun hbodyCode s' m' ↦ realizes_execBlock hinvoke hlimits fuel body hs.2.1 hbody hkept
        hbodyCode) h
  | .ifElse condition body (st :: orelse), g, kept, m₀, m, s, place, hs, hprovides, hkept, hcode,
      h => by
    rw [code_ifElse] at hcode ⊢
    have hbody : Provides e (definitions body) :=
      hprovides.mono (fun _ hr ↦ List.mem_append_left _ hr) fun _ hc ↦ List.mem_append_left _ hc
    have horelse : Provides e (definitions (st :: orelse)) :=
      hprovides.mono (fun _ hr ↦ List.mem_append_right _ hr) fun _ hc ↦ List.mem_append_right _ hc
    have hloops := loops_le_codeOfBlock body (place + condition.code.length + 1) g
    exact realizes_ifThenElse hinvoke hlimits hs.1 rfl rfl rfl hcode
      (fun hbodyCode s' m' ↦ realizes_execBlock hinvoke hlimits fuel body hs.2.1 hbody hkept
        hbodyCode)
      (fun helseCode s' m' ↦ realizes_execBlock hinvoke hlimits fuel (st :: orelse) hs.2.2 horelse
        (fun x hx ↦ (hkept x hx).mono (Nat.le_refl 0) hloops) helseCode) h
  | .whileLoop condition body, g, kept, m₀, m, s, place, hs, hprovides, hkept, hcode, h => by
    rw [code_whileLoop] at hcode ⊢
    exact realizes_while hinvoke hlimits hs.1 rfl rfl hcode
      (fun hbodyCode s' m' ↦ realizes_execBlock hinvoke hlimits fuel body hs.2 hprovides hkept
        hbodyCode) h
  | .forRange name first stop body, g, kept, m₀, m, s, place, hs, hprovides, hkept, hcode, h => by
    rw [code_forRange] at hcode ⊢
    exact realizes_for hinvoke hlimits hs.1 hs.2.1 hs.2.2.1 hkept rfl rfl hcode
      (fun s' m' hbodyCode h' ↦ realizes_execBlock hinvoke hlimits fuel body
        (blockScoped_mono (Declaring.plain hs.1) hs.2.2.2) hprovides (fun _ hx ↦ hx) hbodyCode h') h

theorem realizes_execBlock (hinvoke : InvokesRealized e limits invoke)
    (hlimits : limits.steps = none) (fuel : Nat) {i : Bool} :
    ∀ (block : List Stmt) {g : Gathered} {kept : String → Prop} {m₀ m : Machine}
      {s : WalkState} {place : Nat}, BlockScoped i Plain block → Provides e (definitions block) →
      (∀ x, kept x → HiddenBelow 0 g.loops x) →
      CodeAt m₀.code place (codeOfBlock place g block).1 → Visits e limits kept m₀ place s m →
      Realizes e m (Tariff.direct.execBlock fuel invoke block) s
        (Completes e limits m₀
          (Visits e limits kept m₀ (place + (codeOfBlock place g block).1.length)))
  | [], g, kept, m₀, m, s, place, hs, hprovides, hkept, hcode, h => realizes_pure h
  | st :: ss, g, kept, m₀, m, s, place, hs, hprovides, hkept, hcode, h => by
    rw [codeOfBlock_cons] at hcode ⊢
    obtain ⟨hfirst, hrest⟩ := codeAt_append.mp hcode
    rw [Tariff.execBlock, List.length_append, ← Nat.add_assoc]
    have hfirstProvides : Provides e (definitionsOfStmt st) :=
      hprovides.mono (fun _ hr ↦ List.mem_append_left _ hr) fun _ hc ↦ List.mem_append_left _ hc
    have hrestProvides : Provides e (definitions ss) :=
      hprovides.mono (fun _ hr ↦ List.mem_append_right _ hr) fun _ hc ↦ List.mem_append_right _ hc
    refine realizes_then
      (realizes_exec hinvoke hlimits fuel st hs.1 hfirstProvides hkept hfirst h) fun s₁ m₁ h₁ ↦ ?_
    exact realizes_execBlock hinvoke hlimits fuel ss
      (blockScoped_mono (Stmt.declared_plain hs.1) hs.2) hrestProvides
      (fun x hx ↦ (hkept x hx).mono (Nat.le_refl 0) (loops_le_code st place g)) hrest h₁

end

end

end Offside
