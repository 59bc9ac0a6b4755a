import Offside.Proofs.Realization.Calls

/-!
The flow of control. A statement takes the machine from one place of a block to another and keeps
the variables that belong to what surrounds it, or it brings the machine in front of an instruction
that returns. The rules for blocks, conditionals and loops say which parts of the code have to be
realized; every lowering puts its own code in for them.
-/

set_option autoImplicit false
set_option relaxedAutoImplicit false

namespace Offside

open Machine (Follows Binds)
open Tariff (charge)

/-! ### Passing from place to place -/

namespace Machine

/-- The second machine is in the same block and the same call, and has the variables in `kept` of
the first. -/
structure Passes (kept : String → Prop) (m m' : Machine) : Prop where
  code : m'.code = m.code
  outer : m'.outer = m.outer
  vars : ∀ x, kept x → m'.vars.get? x = m.vars.get? x

namespace Passes

variable {kept kept' : String → Prop} {m m₁ m₂ : Machine}

theorem refl : Passes kept m m :=
  ⟨rfl, rfl, fun _ _ ↦ rfl⟩

theorem trans (h : Passes kept m m₁) (h' : Passes kept m₁ m₂) : Passes kept m m₂ where
  code := h'.code.trans h.code
  outer := h'.outer.trans h.outer
  vars x hx := (h'.vars x hx).trans (h.vars x hx)

theorem mono (h : Passes kept m m₁) (hkept : ∀ x, kept' x → kept x) : Passes kept' m m₁ where
  code := h.code
  outer := h.outer
  vars x hx := h.vars x (hkept x hx)

theorem of_follows {place : Nat} {stack : List Value} (h : Follows m m₁ place stack) :
    Passes kept m m₁ where
  code := h.code
  outer := h.outer
  vars x _ := by rw [h.vars]

theorem of_binds {name : String} {v : Value} {stack : List Value} (h : Binds m m₁ name v stack)
    (hname : ¬kept name) : Passes kept m m₁ where
  code := h.code
  outer := h.outer
  vars x hx := by
    have hne : name ≠ x := fun heq ↦ hname (heq ▸ hx)
    rw [h.vars, Bindings.get?_set_of_ne _ hne]

end Passes

end Machine

open Machine (Passes)

/-- The machine has passed from `m` to the given place, with the stack as it was. -/
structure Visits (e : Executable) (limits : Limits) (kept : String → Prop) (m : Machine)
    (place : Nat) (s : WalkState) (m' : Machine) : Prop where
  state : Matches e limits s m'
  passes : Passes kept m m'
  place : m'.place = place
  stack : m'.stack = m.stack

/-- The machine has come from `m` in front of an instruction that returns the given value. -/
structure Returns (e : Executable) (limits : Limits) (m : Machine) (value : Value)
    (s : WalkState) (m' : Machine) : Prop where
  state : Matches e limits s m'
  code : m'.code = m.code
  outer : m'.outer = m.outer
  instr : m'.code[m'.place]? = some .returnValue
  stack : m'.stack = value :: m.stack

/-- Where a statement leaves the machine: `Q` holds where the next one is due. -/
def Completes (e : Executable) (limits : Limits) (m : Machine) (Q : WalkState → Machine → Prop) :
    Completion → WalkState → Machine → Prop
  | .next => Q
  | .returned value => Returns e limits m value

section

variable {e : Executable} {limits : Limits} {kept kept' : String → Prop} {m m₁ m₂ : Machine}
  {s s₁ : WalkState} {place place' : Nat} {stack : List Value} {Q R : WalkState → Machine → Prop}

namespace Visits

theorem start (h : Matches e limits s m) : Visits e limits kept m m.place s m :=
  ⟨h, .refl, rfl, rfl⟩

theorem trans (h : Visits e limits kept m place s m₁)
    (h' : Visits e limits kept m₁ place' s₁ m₂) : Visits e limits kept m place' s₁ m₂ :=
  ⟨h'.state, h.passes.trans h'.passes, h'.place, h'.stack.trans h.stack⟩

theorem mono (h : Visits e limits kept m place s m₁) (hkept : ∀ x, kept' x → kept x) :
    Visits e limits kept' m place s m₁ :=
  ⟨h.state, h.passes.mono hkept, h.place, h.stack⟩

theorem of_follows (h : Matches e limits s m₁) (hfollows : Follows m m₁ place m.stack) :
    Visits e limits kept m place s m₁ :=
  ⟨h, .of_follows hfollows, hfollows.place, hfollows.stack⟩

theorem of_binds {name : String} {v : Value} (h : Matches e limits s m₂)
    (hfollows : Follows m m₁ place stack) (hbinds : Binds m₁ m₂ name v m.stack)
    (hname : ¬kept name) : Visits e limits kept m (place + 1) s m₂ :=
  ⟨h, (Passes.of_follows hfollows).trans (.of_binds hbinds hname),
    by rw [hbinds.place, hfollows.place], hbinds.stack⟩

/-- The machine follows itself at the place that it visits. -/
theorem here (h : Visits e limits kept m place s m₁) : Follows m₁ m₁ place m₁.stack :=
  ⟨rfl, h.place, rfl, rfl, rfl⟩

theorem self (h : Visits e limits kept m place s m₁) : Visits e limits kept' m₁ place s m₁ :=
  ⟨h.state, .refl, h.place, rfl⟩

theorem codeAt {is : List Instr} (h : Visits e limits kept m place s m₁)
    (hcode : CodeAt m.code place' is) : CodeAt m₁.code place' is := by
  rw [h.passes.code]
  exact hcode

theorem instr {i : Instr} (h : Visits e limits kept m place s m₁)
    (hi : m.code[place']? = some i) : m₁.code[place']? = some i := by
  rw [h.passes.code]
  exact hi

theorem le_size {target : Nat} (h : Visits e limits kept m place s m₁)
    (htarget : target ≤ m.code.size) : target ≤ m₁.code.size := by
  rw [h.passes.code]
  exact htarget

end Visits

theorem Returns.of_follows {v : Value} (h : Matches e limits s m₁)
    (hfollows : Follows m m₁ place (v :: m.stack)) (hi : m.code[place]? = some .returnValue) :
    Returns e limits m v s m₁ :=
  ⟨h, hfollows.code, hfollows.outer, hfollows.instr hi, hfollows.stack⟩

theorem Returns.of_visits {v : Value} (h : Visits e limits kept m place s m₁)
    (h' : Returns e limits m₁ v s₁ m₂) : Returns e limits m v s₁ m₂ where
  state := h'.state
  code := h'.code.trans h.passes.code
  outer := h'.outer.trans h.passes.outer
  instr := h'.instr
  stack := by rw [h'.stack, h.stack]

/-- A statement that is begun on the way is completed from the start. -/
theorem Completes.of_visits {c : Completion} (h : Visits e limits kept m place s m₁)
    (h' : Completes e limits m₁ Q c s₁ m₂) (hQ : Q s₁ m₂ → R s₁ m₂) :
    Completes e limits m R c s₁ m₂ := by
  cases c with
  | next => exact hQ h'
  | returned v => exact Returns.of_visits h h'

/-! ### Blocks and conditionals -/

/-- A jump within the block. -/
theorem realizes_jumpTo (hlimits : limits.steps = none) {target : Nat}
    (h : Visits e limits kept m place s m₁) (hi : m.code[place]? = some (.jump target))
    (htarget : target ≤ m.code.size) :
    Realizes e m₁ (charge 1) s fun _ s' m' ↦
      Matches e limits s' m' ∧ Follows m₁ m' target m₁.stack :=
  realizes_jump hlimits h.state (h.here.instr (h.instr hi)) (h.le_size htarget)

/-- A branch on the value on top of the stack. -/
theorem realizes_branch (hlimits : limits.steps = none) {target : Nat} {v : Value}
    (hmatch : Matches e limits s m₁) (hfollows : Follows m m₁ place (v :: stack))
    (hi : m.code[place]? = some (.jumpIfFalse target)) (htarget : target ≤ m.code.size) :
    Realizes e m₁ (do charge 1; return (← get).heap.isTruthy v) s fun b s' m' ↦
      Matches e limits s' m' ∧ Follows m m' (if b then place + 1 else target) stack := by
  have hsize : target ≤ m₁.code.size := by
    rw [hfollows.code]
    exact htarget
  refine (realizes_jumpIfFalse hlimits hmatch (hfollows.instr hi) hfollows.stack hsize).post ?_
  rintro b s' m' ⟨hmatch', hfollows'⟩
  rw [hfollows.place] at hfollows'
  exact ⟨hmatch', hfollows.trans hfollows'⟩

/-- A statement and what follows it. -/
theorem realizes_then {x y : Walk Completion}
    (hx : Realizes e m₁ x s (Completes e limits m Q))
    (hy : ∀ s' m', Q s' m' → Realizes e m' y s' (Completes e limits m R)) :
    Realizes e m₁ (do
        match ← x with
        | .returned value => return .returned value
        | .next => y) s (Completes e limits m R) := by
  refine hx.bind fun c s' m' hc ↦ ?_
  cases c with
  | next => exact hy s' m' hc
  | returned v => exact realizes_pure hc

/-- A conditional, whose two branches come together at one place. -/
theorem realizes_ifElse {t : Tariff} {condition : Walk Value} {body orelse : Walk Completion}
    {skip bodyStart bodyStop elseStart : Nat}
    (htest : Realizes e m₁ (condition >>= t.test) s fun b ↦
      Visits e limits kept m (if b then bodyStart else elseStart))
    (hbody : ∀ s' m', Visits e limits kept m bodyStart s' m' →
      Realizes e m' body s' (Completes e limits m (Visits e limits kept m bodyStop)))
    (hskip : ∀ s' m', Visits e limits kept m bodyStop s' m' →
      Realizes e m' (charge skip) s' fun _ ↦ Visits e limits kept m place)
    (horelse : ∀ s' m', Visits e limits kept m elseStart s' m' →
      Realizes e m' orelse s' (Completes e limits m (Visits e limits kept m place))) :
    Realizes e m₁ (do
        if ← t.test (← condition) then
          match ← body with
          | .returned value => return .returned value
          | .next =>
            charge skip
            return .next
        else orelse) s (Completes e limits m (Visits e limits kept m place)) := by
  rw [← bind_assoc]
  refine htest.bind fun b s' m' hvisits ↦ ?_
  cases b with
  | true =>
    refine (hbody s' m' hvisits).bind fun c s'' m'' hc ↦ ?_
    cases c with
    | next => exact (hskip s'' m'' hc).bind fun _ _ _ hplace ↦ realizes_pure hplace
    | returned v => exact realizes_pure hc
  | false => exact horelse s' m' hvisits

/-! ### Loops -/

/-- The rest of a turn, which ends with a jump back to the top of the loop. -/
theorem realizes_endTurn {σ : Type} {I J : σ → WalkState → Machine → Prop} {rest : Walk σ}
    {c : Completion} (hc : Completes e limits m R c s m₁)
    (hrest : R s m₁ → Realizes e m₁ rest s I)
    (hjump : ∀ v s' m', I v s' m' → Realizes e m' (charge 1) s' fun _ ↦ J v) :
    Realizes e m₁ (Tariff.endTurn rest c) s fun r s' m' ↦
      r.elim (fun v ↦ J v s' m') fun c' ↦ Completes e limits m Q c' s' m' := by
  cases c with
  | next =>
    refine (hrest hc).bind fun v s' m' hv ↦ ?_
    exact (hjump v s' m' hv).bind fun _ _ _ hJ ↦ realizes_pure hJ
  | returned v => exact realizes_pure hc

/-- A loop on a condition. -/
theorem realizes_whileLoop (hlimits : limits.steps = none) {t : Tariff} {condition : Walk Value}
    {body : Walk Completion} {top bodyStart bodyStop : Nat}
    (htest : ∀ s' m', Visits e limits kept m top s' m' →
      Realizes e m' (condition >>= t.test) s' fun b ↦
        Visits e limits kept m (if b then bodyStart else place))
    (hbody : ∀ s' m', Visits e limits kept m bodyStart s' m' →
      Realizes e m' body s' (Completes e limits m (Visits e limits kept m bodyStop)))
    (hi : m.code[bodyStop]? = some (.jump top)) (htop : top ≤ m.code.size) (fuel : Nat) :
    ∀ s' m', Visits e limits kept m top s' m' →
      Realizes e m' (Walk.iterate (t.whileTurn condition body) fuel ()) s'
        (Completes e limits m (Visits e limits kept m place)) := by
  refine realizes_iterate (I := fun _ ↦ Visits e limits kept m top) (fun _ s' m' hvisits ↦ ?_)
    (fun _ s' m' hvisits ↦ Nat.le_succ_of_le (Nat.le_of_eq hvisits.state.steps.symm)) fuel ()
  rw [Tariff.whileTurn, ← bind_assoc]
  refine (htest s' m' hvisits).bind fun b s₁ m₁ hb ↦ ?_
  cases b with
  | true =>
    refine (hbody s₁ m₁ hb).bind fun c s₂ m₂ hc ↦ ?_
    refine realizes_endTurn hc (I := fun _ ↦ Visits e limits kept m bodyStop)
      (fun hstop ↦ realizes_pure hstop) fun _ s₃ m₃ hstop ↦ ?_
    refine (realizes_jumpTo hlimits hstop hi htop).post fun _ s₄ m₄ h ↦ ?_
    exact hstop.trans (.of_follows h.1 h.2)
  | false => exact realizes_pure hb

/-- A machine at a place of a counting loop, whose counter and bound are kept in variables. -/
structure Counting (e : Executable) (limits : Limits) (kept : String → Prop) (m : Machine)
    (counter bound : String) (limit : Value) (place : Nat) (count : Value) (s : WalkState)
    (m' : Machine) : Prop extends Visits e limits kept m place s m' where
  counter : m'.vars.get? counter = some count
  bound : m'.vars.get? bound = some limit

theorem Counting.of_visits {counter bound : String} {limit count : Value}
    (h : Counting e limits kept m counter bound limit place count s m₁)
    (h' : Visits e limits kept' m₁ place' s₁ m₂) (hkept : ∀ x, kept x → kept' x)
    (hcounter : kept' counter) (hbound : kept' bound) :
    Counting e limits kept m counter bound limit place' count s₁ m₂ :=
  ⟨h.toVisits.trans (h'.mono hkept), (h'.passes.vars counter hcounter).trans h.counter,
    (h'.passes.vars bound hbound).trans h.bound⟩

theorem Counting.of_follows {counter bound : String} {limit count : Value}
    (h : Counting e limits kept m counter bound limit place count s m₁)
    (hmatch : Matches e limits s₁ m₂) (hfollows : Follows m₁ m₂ place' m₁.stack) :
    Counting e limits kept m counter bound limit place' count s₁ m₂ := by
  have hvisits : Visits e limits (fun _ ↦ True) m₁ place' s₁ m₂ := .of_follows hmatch hfollows
  exact h.of_visits hvisits (fun _ _ ↦ trivial) trivial trivial

/-- A counting loop. -/
theorem realizes_forLoop (hlimits : limits.steps = none) {t : Tariff} {name counter bound : String}
    {limit : Value} {body : Walk Completion} {top stored bodyStart bodyStop turned : Nat}
    (htest : ∀ count s' m', Counting e limits kept m counter bound limit top count s' m' →
      Realizes e m' (do
          charge t.lookup
          charge t.lookup
          let below ← t.operate 2
            (Walk.observe fun h ↦ (h.compare .lt count limit).map Value.boolean)
          t.test below) s' fun b ↦
        Counting e limits kept m counter bound limit (if b then stored else place) count)
    (hstore : ∀ count s' m', Counting e limits kept m counter bound limit stored count s' m' →
      Realizes e m' (do
          charge t.lookup
          t.perform 1 (Walk.store name count)) s' fun _ ↦
        Counting e limits kept m counter bound limit bodyStart count)
    (hbody : ∀ count s' m', Counting e limits kept m counter bound limit bodyStart count s' m' →
      Realizes e m' body s'
        (Completes e limits m (Counting e limits kept m counter bound limit bodyStop count)))
    (hcountUp : ∀ count s' m', Counting e limits kept m counter bound limit bodyStop count s' m' →
      Realizes e m' (t.countUp count) s' (Counting e limits kept m counter bound limit turned))
    (hi : m.code[turned]? = some (.jump top)) (htop : top ≤ m.code.size) (fuel : Nat) :
    ∀ count s' m', Counting e limits kept m counter bound limit top count s' m' →
      Realizes e m' (Walk.iterate (t.forTurn name limit body) fuel count) s'
        (Completes e limits m (Visits e limits kept m place)) := by
  refine realizes_iterate (fun count s' m' hcount ↦ ?_)
    (fun _ s' m' hcount ↦ Nat.le_succ_of_le (Nat.le_of_eq hcount.state.steps.symm)) fuel
  have hturn : t.forTurn name limit body count =
      ((do
        charge t.lookup
        charge t.lookup
        let below ← t.operate 2 (Walk.observe fun h ↦ (h.compare .lt count limit).map Value.boolean)
        t.test below) >>= fun b ↦
      if b then
        (do
          charge t.lookup
          t.perform 1 (Walk.store name count)) >>= fun _ ↦
        body >>= Tariff.endTurn (t.countUp count)
      else pure (.inr .next)) := by
    simp only [Tariff.forTurn, bind_assoc]
  rw [hturn]
  refine (htest count s' m' hcount).bind fun b s₁ m₁ hb ↦ ?_
  cases b with
  | true =>
    refine (hstore count s₁ m₁ hb).bind fun _ s₂ m₂ hstored ↦ ?_
    refine (hbody count s₂ m₂ hstored).bind fun c s₃ m₃ hc ↦ ?_
    refine realizes_endTurn hc (hcountUp count s₃ m₃) fun next s₄ m₄ hnext ↦ ?_
    refine (realizes_jumpTo hlimits hnext.toVisits hi htop).post fun _ s₅ m₅ h ↦ ?_
    exact hnext.of_follows h.1 h.2
  | false => exact realizes_pure hb.toVisits

end

end Offside
