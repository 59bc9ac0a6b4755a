import Offside.Proofs.Code.Level
import Offside.Proofs.Machine.Effects
import Offside.Proofs.Machine.Reach

/-!
A machine that runs a balanced executable. All calls share one stack, and each open call stands at a
place of a routine with as many values above those of its caller as the heights of the routine say;
its caller goes on with one value more, which is what the call will return (`Stands`). Every step
keeps this (`Balance.step`), so no step finds too few operands or jumps out of its block, and a run
that halts has nothing left on the stack.
-/

set_option autoImplicit false
set_option relaxedAutoImplicit false

namespace Offside

/-- The errors of a machine whose code is malformed. -/
def RuntimeError.IsImbalance : RuntimeError → Prop
  | .stackUnderflow => True
  | .invalidJumpTarget _ _ => True
  | _ => False

namespace Machine

/-- A machine at a place of a block, with the given callers, has so many values on its stack. -/
inductive Stands (e : Executable) :
    Code → Nat → List (Code × Nat × Option Value) → Nat → Prop
  | main (height : Nat → Nat) (place : Nat) (hheights : e.main.Heights height)
    (hend : height e.main.size = 0) (hplace : place ≤ e.main.size) :
    Stands e e.main place [] (height place)
  | routine (r : Routine Code) (height : Nat → Nat) (place : Nat)
    (origin : Code × Nat × Option Value) (origins : List (Code × Nat × Option Value)) (below : Nat)
    (hr : e.Holds r) (hheights : r.body.Heights height)
    (hinside : ∀ place (i : Instr) next, r.body[place]? = some i → i.LeadsTo place next →
      next < r.body.size) (hplace : place < r.body.size)
    (hcaller : Stands e origin.1 origin.2.1 origins (below + 1)) :
    Stands e r.body place (origin :: origins) (height place + below)

/-- All that a machine has defined comes from the executable. -/
structure Loaded (e : Executable) (m : Machine) : Prop where
  functions : ∀ n r, m.functions.get? n = some r → e.functions.get? n = some r
  classes : ∀ n c, m.classes.get? n = some c → e.classes.get? n = some c
  instances : ∀ cell i, m.heap.instance? cell = some i →
    ∃ n c, e.classes.get? n = some c ∧ i.methods = c.methods

/-- A machine that runs a balanced executable. -/
structure Balance (e : Executable) (m : Machine) : Prop where
  loaded : Loaded e m
  stands : Stands e m.code m.place (m.calls.map origin) m.stack.length

/-! ### Definitions -/

section

variable {e : Executable} {m m' : Machine}

theorem loaded_start (limits : Limits) (code : Code) : Loaded e (start limits code) where
  functions _ _ h := by cases h
  classes _ _ h := by cases h
  instances _ _ h := by cases h

theorem Loaded.keeps (h : Loaded e m) (hkeeps : Keeps e m m') : Loaded e m' where
  functions n r hr := (hkeeps.functions n r hr).elim (h.functions n r) id
  classes n c hc := (hkeeps.classes n c hc).elim (h.classes n c) id
  instances cell i hi := by
    rcases hkeeps.instances cell i hi with ⟨j, hj, hmethods⟩ | ⟨n, c, hc, hmethods⟩
    · obtain ⟨n, c, hc, hmethods'⟩ := h.instances cell j hj
      exact ⟨n, c, hc, hmethods.trans hmethods'⟩
    · exact ⟨n, c, h.classes n c hc, hmethods⟩

/-- A routine that can be entered is one of the executable. -/
theorem Loaded.holds (h : Loaded e m) {r : Routine Code} (hr : m.CanEnter r) : e.Holds r := by
  cases hr with
  | function name hname => exact .function name (h.functions name r hname)
  | constructor name c hc hmethod => exact .method name c _ (h.classes name c hc) hmethod
  | method cell i name hi hmethod =>
    obtain ⟨n, c, hc, hmethods⟩ := h.instances cell i hi
    exact .method n c name hc (hmethods ▸ hmethod)

/-- Control does not matter. -/
theorem Loaded.of_eq (h : Loaded e m) (hfunctions : m'.functions = m.functions)
    (hclasses : m'.classes = m.classes) (hheap : m'.heap = m.heap) : Loaded e m' where
  functions n r hr := h.functions n r (hfunctions ▸ hr)
  classes n c hc := h.classes n c (hclasses ▸ hc)
  instances cell i hi := h.instances cell i (hheap ▸ hi)

theorem Loaded.returnValue (h : Loaded e m) (value : Value) :
    Loaded e (m.returnValue value).2 := by
  unfold Machine.returnValue
  split
  · exact h
  · exact h.of_eq rfl rfl rfl

end

/-! ### Heights -/

section

variable {e : Executable} {code : Code} {place n : Nat}
  {origins : List (Code × Nat × Option Value)} {i : Instr}

/-- There are as many values as an instruction takes. -/
theorem Stands.pops_le (h : Stands e code place origins n) (hi : code[place]? = some i) :
    i.pops ≤ n := by
  cases h with
  | main height place hheights hend hplace => exact hheights.enough place i hi
  | routine r height place origin origins below hr hheights hinside hplace hcaller =>
    exact Nat.le_add_right_of_le (hheights.enough place i hi)

/-- Where an instruction leads to, the machine stands with what the instruction leaves. -/
theorem Stands.leads (h : Stands e code place origins n) (hi : code[place]? = some i) {next k : Nat}
    (hleads : i.LeadsTo place next) (hk : k + i.pops = n + i.pushes) :
    Stands e code next origins k := by
  cases h with
  | main height place hheights hend hplace =>
    obtain ⟨hle, hnext⟩ := hheights.edge place i next hi hleads
    obtain rfl : k = height next := by omega
    exact .main height next hheights hend hle
  | routine r height place origin origins below hr hheights hinside hplace hcaller =>
    obtain ⟨-, hnext⟩ := hheights.edge place i next hi hleads
    obtain rfl : k = height next + below := by omega
    exact .routine r height next origin origins below hr hheights hinside
      (hinside place i next hi hleads) hcaller

/-- A jump leads into the block or right behind its end. -/
theorem Stands.target_le (h : Stands e code place origins n) (hi : code[place]? = some i)
    {target : Nat} (htarget : i.target? = some target) : target ≤ code.size := by
  cases h with
  | main height place hheights hend hplace =>
    exact (hheights.edge place i target hi (.inr htarget)).1
  | routine r height place origin origins below hr hheights hinside hplace hcaller =>
    exact (hheights.edge place i target hi (.inr htarget)).1

/-- At a return, there is the value that it returns above those of the caller. -/
theorem Stands.returns {origin : Code × Nat × Option Value}
    (h : Stands e code place (origin :: origins) n) (hi : code[place]? = some .returnValue) :
    Stands e origin.1 origin.2.1 origins n := by
  cases h with
  | routine r height place origin origins below hr hheights hinside hplace hcaller =>
    rw [hheights.returns place hi, Nat.add_comm]
    exact hcaller

/-- A routine does not end without a return. -/
theorem Stands.place_lt {origin : Code × Nat × Option Value}
    (h : Stands e code place (origin :: origins) n) : place < code.size := by
  cases h with
  | routine r height place origin origins below hr hheights hinside hplace hcaller => exact hplace

/-- At the end of the main block, there is nothing on the stack. -/
theorem Stands.main_end (h : Stands e code place [] n) (hplace : code.size ≤ place) : n = 0 := by
  cases h with
  | main height place hheights hend hle =>
    obtain rfl : place = e.main.size := Nat.le_antisymm hle hplace
    exact hend

/-- A call of a routine starts with nothing on the stack above what its caller keeps. -/
theorem Stands.enter (he : e.Balanced) {r : Routine Code} (hr : e.Holds r)
    {origin : Code × Nat × Option Value} {below : Nat}
    (h : Stands e origin.1 origin.2.1 origins (below + 1)) :
    Stands e r.body 0 (origin :: origins) below := by
  obtain ⟨height, hheights, hsize, hinside⟩ := he.routines r hr
  have hstands : Stands e r.body 0 (origin :: origins) (height 0 + below) :=
    .routine r height 0 origin origins below hr hheights hinside hsize h
  rwa [hheights.start, Nat.zero_add] at hstands

end

/-! ### Steps -/

section

variable {e : Executable} {m m' : Machine}

theorem balance_start (he : e.Balanced) (limits : Limits) : Balance e (start limits e.main) := by
  obtain ⟨height, hheights, hend⟩ := he.main
  refine ⟨loaded_start limits e.main, ?_⟩
  have hstands : Stands e e.main 0 [] (height 0) := .main height 0 hheights hend (Nat.zero_le _)
  rwa [hheights.start] at hstands

/-- What a step of a balanced executable ends in: in nothing on the stack and no open call, in
balance, or in an error that is not for want of it. -/
def Outcome.Balanced (e : Executable) : Outcome → Prop
  | (.ok .halted, m) => m.stack = [] ∧ m.calls = []
  | (.ok _, m) => Balance e m
  | (.error error, _) => ¬error.IsImbalance

theorem balanced_returnValue {value : Value} {call : Call} {calls : List Call}
    (hloaded : Loaded e m) (hcalls : m.calls = call :: calls)
    (hcaller : Stands e call.callerCode call.callerPlace (calls.map origin)
      (m.stack.length + 1)) : (m.returnValue value).Balanced e := by
  have hloaded' := hloaded.returnValue value
  simp only [Machine.returnValue, hcalls] at hloaded' ⊢
  exact ⟨hloaded', hcaller⟩

/-- A machine that has fetched an instruction carries it out in balance. -/
theorem Does.balanced (he : e.Balanced) {i : Instr} {o : Outcome} (hdoes : Does e m.next i o)
    (hi : m.code[m.place]? = some i) (h : Balance e m) : o.Balanced e := by
  obtain ⟨hloaded, hstands⟩ := h
  have hnext : Loaded e m.next := hloaded.of_eq rfl rfl rfl
  cases hdoes with
  | fails m' error hkeeps herror =>
    intro himbalance
    cases error with
    | stackUnderflow => exact absurd (hstands.pops_le hi) (Nat.not_le_of_lt herror)
    | invalidJumpTarget target length =>
      exact absurd (hstands.target_le hi herror.1) (Nat.not_le_of_lt herror.2.2)
    | _ => exact himbalance
  | goesOn m' hkeeps hfalls hstack =>
    refine ⟨hnext.keeps hkeeps, ?_⟩
    rw [hkeeps.code, hkeeps.place, hkeeps.calls]
    exact hstands.leads hi (.inl ⟨hfalls, rfl⟩) hstack
  | jumps m' target hkeeps htarget hle hstack =>
    refine ⟨(hnext.keeps hkeeps).of_eq rfl rfl rfl, ?_⟩
    show Stands e m'.code target (m'.calls.map origin) m'.stack.length
    rw [hkeeps.code, hkeeps.calls]
    exact hstands.leads hi (.inr htarget) hstack
  | enters m' r args made hkeeps hr hadmitted hfalls hpushes hstack =>
    refine ⟨(hnext.keeps hkeeps).of_eq rfl rfl rfl, ?_⟩
    show Stands e r.body 0 ((m'.code, m'.place, made) :: m'.calls.map origin) m'.stack.length
    refine .enter he (hnext.holds hr) ?_
    rw [hkeeps.code, hkeeps.place, hkeeps.calls]
    refine hstands.leads hi (.inl ⟨hfalls, rfl⟩) ?_
    rw [hpushes, Nat.add_right_comm, hstack]
    rfl
  | returns value rest call calls hreturn hstack hcalls =>
    subst hreturn
    replace hcalls : m.calls = call :: calls := hcalls
    replace hstack : m.stack = value :: rest := hstack
    rw [hcalls, hstack] at hstands
    exact balanced_returnValue (hnext.of_eq rfl rfl rfl) hcalls (hstands.returns hi)

/-- A step of a balanced executable keeps the balance, or leaves nothing on the stack. -/
theorem Balance.step (he : e.Balanced) (h : Balance e m) : (m.step e).Balanced e := by
  have hsteps := step_steps e m
  generalize m.step e = o at hsteps ⊢
  cases hsteps with
  | halts hplace hcalls =>
    have hstands := h.stands
    rw [hcalls] at hstands
    exact ⟨List.length_eq_zero_iff.mp (hstands.main_end hplace), hcalls⟩
  | ends call calls hplace hcalls =>
    have hstands := h.stands
    rw [hcalls] at hstands
    exact absurd hstands.place_lt (Nat.not_lt_of_le hplace)
  | stops n hplace => exact id
  | executes i _ hi hadmitted hdoes => exact hdoes.balanced he hi h

/-- Whatever a machine in balance reaches is in balance. -/
theorem Balance.reaches (he : e.Balanced) (h : Balance e m) (hreach : Reaches e m m') :
    Balance e m' := by
  induction hreach with
  | refl => exact h
  | tail _ hstep ih =>
    obtain ⟨status, hstatus, hstep⟩ := hstep
    have hbalanced := ih.step he
    rw [hstep] at hbalanced
    cases status with
    | running => exact hbalanced
    | returned => exact hbalanced
    | halted => exact absurd rfl hstatus

/-- A run from a machine in balance ends with nothing on the stack and no open call, or in an error
that is not for want of balance. -/
theorem Balance.runFrom (he : e.Balanced) {fuel : Nat} {error : Option RuntimeError}
    (h : Balance e m) (hrun : runFrom e fuel m = some (error, m')) :
    (∀ err, error = some err → ¬err.IsImbalance) ∧
      (error = none → m'.stack = [] ∧ m'.calls = []) := by
  induction fuel generalizing m with
  | zero => cases hrun
  | succ fuel ih =>
    have hstep := h.step he
    obtain ⟨heq, rfl⟩ | ⟨status, m₁, hstatus, heq, hrest⟩ | ⟨err, heq, rfl⟩ := runFrom_succ hrun
    · rw [heq] at hstep
      exact ⟨fun _ herr ↦ (nomatch herr), fun _ ↦ hstep⟩
    · rw [heq] at hstep
      refine ih ?_ hrest
      cases status with
      | running => exact hstep
      | returned => exact hstep
      | halted => exact absurd rfl hstatus
    · rw [heq] at hstep
      refine ⟨fun _ herr ↦ ?_, fun hnone ↦ by cases hnone⟩
      cases herr
      exact hstep

end

end Machine

end Offside
