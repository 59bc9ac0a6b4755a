import Offside.Proofs.Machine.Strides
import Offside.Proofs.Number.Counting

/-!
Forced steps. Where a machine has what its instruction takes, its next step is known, unless it is
one too many (`Drives`). Forced steps in a row lead a frame from place to place, whatever else
happens (`Led`); the rules for instructions follow the stack and the variables on the way
(`Arrives`).
-/

set_option autoImplicit false
set_option relaxedAutoImplicit false

namespace Offside.Machine

/-- The machine becomes the other one in its next step, if the limit admits one. -/
def Drives (e : Executable) (x y : Machine) : Prop :=
  x.step e = (.ok .running, y) ∨ ∃ n m', x.step e = (.error (.stepLimitExceeded n), m')

section

variable {e : Executable} {x y z : Machine} {i : Instr}

theorem drives_of_execute (hi : x.code[x.place]? = some i)
    (h : x.next.execute e i = (.ok .running, y)) : Drives e x y := by
  cases hadmitted : x.limits.admitStep x.steps with
  | ok _ => exact .inl ((step_of_instr hi hadmitted).trans h)
  | error error =>
    obtain ⟨n, rfl⟩ := Limits.admitStep_eq_error hadmitted
    refine .inr ⟨n, x, ?_⟩
    simp only [step, hi, hadmitted]
    rfl

theorem Drives.eq (h : Drives e x y) (hadvances : Advances e x z) : z = y := by
  obtain ⟨st, -, hstep⟩ := hadvances
  rcases h with hrunning | ⟨n, m', herror⟩
  · rw [hstep] at hrunning
    exact (Prod.mk.inj hrunning).2
  · rw [hstep] at herror
    cases herror

/-- A stride that starts with a forced step in the frame is that step. -/
theorem Stride.eq_of_drives (h : Stride e x z) (hdrives : Drives e x y)
    (hdepth : y.calls.length = x.calls.length) : z = y ∧ Advances e x y := by
  cases h with
  | step hstep _ =>
    obtain rfl := hdrives.eq hstep
    exact ⟨rfl, hstep⟩
  | call o m' hcalling hreturned =>
    obtain ⟨-, -, ⟨m₁, hadvances, hopened⟩, -⟩ := hcalling
    obtain rfl := hdrives.eq hadvances
    exact absurd hdepth (Nat.ne_of_gt hopened.depth_lt)

theorem Binds.depth_eq {name : String} {value : Value} {rest : List Value}
    (h : Binds x y name value rest) : y.calls.length = x.calls.length := by
  have hpasses : Passes (· ≠ name) x y := .of_binds h fun hname ↦ hname rfl
  exact hpasses.depth_eq

/-- A machine with a value for it is driven to store it. -/
theorem drives_store {name : String} {value : Value} {rest : List Value}
    (hi : x.code[x.place]? = some (.storeVariable name)) (hstack : x.stack = value :: rest) :
    Drives e x ((x.next.withStack rest).bind name value) ∧
      Binds x ((x.next.withStack rest).bind name value) name value rest := by
  refine ⟨drives_of_execute hi ?_, binds_bind x name value rest⟩
  simp only [execute, next, hstack]
  rfl

/-- A stride from an instruction that stores is its step, which binds the uppermost value. -/
theorem Stride.store {name : String} (h : Stride e x z)
    (hi : x.code[x.place]? = some (.storeVariable name)) :
    ∃ value rest, x.stack = value :: rest ∧ Advances e x z ∧ Binds x z name value rest := by
  have hpops := h.pops_le hi
  cases hstack : x.stack with
  | nil =>
    rw [hstack] at hpops
    exact absurd hpops (Nat.not_succ_le_zero 0)
  | cons value rest =>
    obtain ⟨hdrives, hbinds⟩ := drives_store (e := e) hi hstack
    obtain ⟨rfl, hadvances⟩ := h.eq_of_drives hdrives hbinds.depth_eq
    exact ⟨value, rest, rfl, hadvances, hbinds⟩

end

/-! ### Forced steps in a row -/

/-- Forced steps from places in `P` that leave a variable alone. -/
abbrev Led (e : Executable) (name : String) (P : Nat → Prop) : Machine → Machine → Prop :=
  Relation.ReflTransGen fun x y ↦ Drives e x y ∧ Passes (· = name) x y ∧ P x.place

theorem Led.mono {e : Executable} {name : String} {P Q : Nat → Prop} {x z : Machine}
    (h : Led e name P x z) (himp : ∀ p, P p → Q p) : Led e name Q x z :=
  Relation.ReflTransGen.mono
    (fun _ _ ⟨hdrives, hpasses, hp⟩ ↦ ⟨hdrives, hpasses, himp _ hp⟩) x z h

theorem Led.passes {e : Executable} {name : String} {P : Nat → Prop} {x z : Machine}
    (h : Led e name P x z) : Passes (· = name) x z := by
  induction h with
  | refl => exact .refl
  | tail _ hstep ih => exact ih.trans hstep.2.1

theorem Led.stride {e : Executable} {name : String} {P : Nat → Prop} {y y' z : Machine}
    (h : Led e name P y z) (hstride : Stride e y y') :
    y = z ∨ P y.place ∧ Passes (· = name) y y' ∧ Led e name P y' z := by
  rcases Relation.ReflTransGen.cases_head h with rfl | ⟨x, ⟨hdrives, hpasses, hp⟩, hrest⟩
  · exact .inl rfl
  · obtain ⟨rfl, -⟩ := hstride.eq_of_drives hdrives hpasses.depth_eq
    exact .inr ⟨hp, hpasses, hrest⟩

/-- Forced steps lead to the given place, with the given stack and variables. -/
def Arrives (e : Executable) (name : String) (P : Nat → Prop) (m : Machine) (place : Nat)
    (stack : List Value) (vars : Bindings Value) : Prop :=
  ∃ z, Led e name P m z ∧ z.place = place ∧ z.stack = stack ∧ z.vars = vars

namespace Arrives

variable {e : Executable} {name x : String} {P : Nat → Prop} {m : Machine} {p p' : Nat} {i : Instr}
  {stack stack' : List Value} {vars : Bindings Value} {v w : Value} {n : Int64} {k target : Nat}

theorem here (hplace : m.place = p) : Arrives e name P m p m.stack m.vars :=
  ⟨m, .refl, hplace, rfl, rfl⟩

/-- An instruction that stores nothing. -/
theorem follow (h : Arrives e name P m p stack vars) (hp : P p) (hi : m.code[p]? = some i)
    (hexecute : ∀ z : Machine, z.code = m.code → z.place = p → z.stack = stack → z.vars = vars →
      ∃ z', z.next.execute e i = (.ok .running, z') ∧ Follows z z' p' stack') :
    Arrives e name P m p' stack' vars := by
  obtain ⟨z, hled, hplace, hstack, hvars⟩ := h
  have hcode := hled.passes.code
  obtain ⟨z', hz', hfollows⟩ := hexecute z hcode hplace hstack hvars
  have hdrives : Drives e z z' := drives_of_execute (hcode ▸ hplace ▸ hi) hz'
  exact ⟨z', hled.tail ⟨hdrives, .of_follows hfollows, hplace ▸ hp⟩, hfollows.place,
    hfollows.stack, hfollows.vars.trans hvars⟩

theorem constant {c : Constant} (h : Arrives e name P m p stack vars) (hp : P p)
    (hi : m.code[p]? = some (.loadConstant c)) :
    Arrives e name P m (p + 1) (.ofConstant c :: stack) vars := by
  refine h.follow hp hi fun z _ hplace hstack _ ↦ ⟨_, rfl, ?_⟩
  exact ⟨rfl, congrArg (· + 1) hplace, congrArg (_ :: ·) hstack, rfl, rfl⟩

theorem load (h : Arrives e name P m p stack vars) (hp : P p)
    (hi : m.code[p]? = some (.loadVariable x)) (hx : vars.get? x = some v) :
    Arrives e name P m (p + 1) (v :: stack) vars := by
  refine h.follow hp hi fun z _ hplace hstack hvars ↦ ⟨z.next.push v, ?_, ?_⟩
  · have hlookup : z.next.lookup x = some v := lookup_of_vars (m := z.next) (hvars ▸ hx)
    simp only [execute, hlookup]
    rfl
  · exact ⟨rfl, congrArg (· + 1) hplace, congrArg (_ :: ·) hstack, rfl, rfl⟩

/-- An instruction that stores to another variable. -/
theorem store (h : Arrives e name P m p (v :: stack) vars) (hp : P p)
    (hi : m.code[p]? = some (.storeVariable x)) (hx : x ≠ name) :
    Arrives e name P m (p + 1) stack (vars.set x v) := by
  obtain ⟨z, hled, hplace, hstack, hvars⟩ := h
  have hi' : z.code[z.place]? = some (.storeVariable x) := by
    rw [hled.passes.code, hplace]
    exact hi
  obtain ⟨hdrives, hbinds⟩ := drives_store (e := e) hi' hstack
  exact ⟨_, hled.tail ⟨hdrives, .of_binds hbinds hx, hplace ▸ hp⟩, by rw [hbinds.place, hplace],
    hbinds.stack, hbinds.vars.trans (by rw [hvars])⟩

/-- A comparison of a count with a bound that it has not passed. -/
theorem compare (h : Arrives e name P m p (w :: .ofNat k :: stack) vars) (hp : P p)
    (hi : m.code[p]? = some (.compare .lt)) (hw : w.number? = some (.int n))
    (hk : k ≤ n.toInt.toNat) :
    Arrives e name P m (p + 1) (.boolean (decide (k < n.toInt.toNat)) :: stack) vars := by
  refine h.follow hp hi fun z _ hplace hstack _ ↦
    ⟨(z.next.withStack stack).push (.boolean (decide (k < n.toInt.toNat))), ?_, ?_⟩
  · simp only [execute, next, hstack, Heap.compare_count _ hw hk]
    rfl
  · exact ⟨rfl, congrArg (· + 1) hplace, rfl, rfl, rfl⟩

/-- The step from a count below a bound to the next. -/
theorem add (h : Arrives e name P m p (.number (.int 1) :: .ofNat k :: stack) vars) (hp : P p)
    (hi : m.code[p]? = some (.arith .add)) (hk : k < n.toInt.toNat) :
    Arrives e name P m (p + 1) (.ofNat (k + 1) :: stack) vars := by
  refine h.follow hp hi fun z _ hplace hstack _ ↦
    ⟨(z.next.withStack stack).push (.ofNat (k + 1)), ?_, ?_⟩
  · simp only [execute, next, hstack, operate, onHeap, Heap.arith_count _ hk]
    rfl
  · exact ⟨rfl, congrArg (· + 1) hplace, rfl, rfl, rfl⟩

theorem jump (h : Arrives e name P m p stack vars) (hp : P p)
    (hi : m.code[p]? = some (.jump target)) (htarget : target ≤ m.code.size) :
    Arrives e name P m target stack vars := by
  refine h.follow hp hi fun z hcode _ hstack _ ↦ ⟨{ z.next with place := target }, ?_, ?_⟩
  · exact if_pos (hcode ▸ htarget)
  · exact ⟨rfl, rfl, hstack, rfl, rfl⟩

/-- A conditional jump that is not taken. -/
theorem pass (h : Arrives e name P m p (.boolean true :: stack) vars) (hp : P p)
    (hi : m.code[p]? = some (.jumpIfFalse target)) : Arrives e name P m (p + 1) stack vars := by
  refine h.follow hp hi fun z _ hplace hstack _ ↦ ⟨z.next.withStack stack, ?_, ?_⟩
  · simp only [execute, next, hstack]
    rfl
  · exact ⟨rfl, congrArg (· + 1) hplace, rfl, rfl, rfl⟩

/-- A conditional jump that is taken. -/
theorem branch (h : Arrives e name P m p (.boolean false :: stack) vars) (hp : P p)
    (hi : m.code[p]? = some (.jumpIfFalse target)) (htarget : target ≤ m.code.size) :
    Arrives e name P m target stack vars := by
  refine h.follow hp hi fun z hcode _ hstack _ ↦
    ⟨{ z.next.withStack stack with place := target }, ?_, ?_⟩
  · simp only [execute, next, hstack]
    exact if_pos (hcode ▸ htarget)
  · exact ⟨rfl, rfl, rfl, rfl, rfl⟩

end Arrives

end Offside.Machine
