import Offside.Proofs.Code
import Offside.Proofs.Machine.Reach
import Offside.Proofs.Scope.Scoped
import Offside.Proofs.Tariff
import Offside.Proofs.Value.Forget

/-!
When a machine is in the state of a walk. The variables of the machine are those of the walk and
hidden ones besides, so the two agree on plain names only; a routine of the walk stands for the code
that direct lowering makes of it; and a heap of the machine keeps the methods of instances, which
are those of their class.
-/

set_option autoImplicit false
set_option relaxedAutoImplicit false

namespace Offside

/-! ### Parts of a machine -/

namespace Machine

/-- The variables of the innermost call, or the global ones. -/
def vars (m : Machine) : Bindings Value :=
  match m.calls with
  | [] => m.globals
  | call :: _ => call.locals

/-- The open calls with all variables but those of the innermost. -/
def outer (m : Machine) : Option (Bindings Value × Call × List Call) :=
  match m.calls with
  | [] => none
  | call :: calls => some (m.globals, { call with locals := .empty }, calls)

/-- The machine with another stack. -/
def withStack (m : Machine) (stack : List Value) : Machine :=
  { m with stack := stack }

theorem calls_eq_nil {m : Machine} (h : m.outer = none) : m.calls = [] := by
  unfold outer at h
  cases hcalls : m.calls with
  | nil => rfl
  | cons call calls =>
    rw [hcalls] at h
    cases h

/-- Where no call is open, the variables are the global ones. -/
theorem lookup_eq_vars {m : Machine} (h : m.outer = none) (x : String) :
    m.lookup x = m.vars.get? x := by
  unfold lookup vars
  rw [calls_eq_nil h]

theorem lookup_of_vars {m : Machine} {name : String} {value : Value}
    (h : m.vars.get? name = some value) : m.lookup name = some value := by
  obtain ⟨limits, stack, globals, calls, depth, functions, classes, heap, code, place, steps,
    output⟩ := m
  cases calls with
  | nil => exact h
  | cons call calls =>
    show (call.locals.get? name).or (globals.get? name) = some value
    rw [show call.locals.get? name = some value from h, Option.some_or]

/-- Without a step limit, an instruction is counted and carried out. -/
theorem step_eq_execute {e : Executable} {m : Machine} {i : Instr}
    (hi : m.code[m.place]? = some i) (hlimit : m.limits.steps = none) :
    m.step e = m.next.execute e i :=
  step_of_instr hi (by simp only [Limits.admitStep, hlimit])

/-- The second machine stands at the given place of the same block with the given stack, and has
the variables of the first. -/
structure Follows (m m' : Machine) (place : Nat) (stack : List Value) : Prop where
  code : m'.code = m.code
  place : m'.place = place
  stack : m'.stack = stack
  calls : m'.calls = m.calls
  globals : m'.globals = m.globals

namespace Follows

variable {m m₁ m₂ : Machine} {p q : Nat} {st st' : List Value}

theorem trans (h : Follows m m₁ p st) (h' : Follows m₁ m₂ q st') : Follows m m₂ q st' where
  code := h'.code.trans h.code
  place := h'.place
  stack := h'.stack
  calls := h'.calls.trans h.calls
  globals := h'.globals.trans h.globals

theorem instr {i : Instr} (h : Follows m m₁ p st) (hi : m.code[p]? = some i) :
    m₁.code[m₁.place]? = some i := by
  rw [h.code, h.place]
  exact hi

theorem lookup (h : Follows m m₁ p st) (name : String) : m₁.lookup name = m.lookup name := by
  unfold Machine.lookup
  rw [h.calls, h.globals]

theorem vars (h : Follows m m₁ p st) : m₁.vars = m.vars := by
  unfold Machine.vars
  rw [h.calls, h.globals]

theorem outer (h : Follows m m₁ p st) : m₁.outer = m.outer := by
  unfold Machine.outer
  rw [h.calls, h.globals]

end Follows

/-- The second machine stands behind the instruction of the first, which has bound a variable. -/
structure Binds (m m' : Machine) (name : String) (value : Value) (stack : List Value) : Prop where
  code : m'.code = m.code
  place : m'.place = m.place + 1
  stack : m'.stack = stack
  outer : m'.outer = m.outer
  vars : m'.vars = m.vars.set name value

theorem binds_bind (m : Machine) (name : String) (value : Value) (stack : List Value) :
    Binds m ((m.next.withStack stack).bind name value) name value stack := by
  obtain ⟨limits, stack', globals, calls, depth, functions, classes, heap, code, place, steps,
    output⟩ := m
  cases calls <;> exact ⟨rfl, rfl, rfl, rfl, rfl⟩

end Machine

/-! ### States that match -/

/-- The code that direct lowering makes of a routine, whatever loops were counted before. -/
def CompiledFrom (r : Routine Block) (rc : Routine Code) : Prop :=
  RoutineScoped Plain r ∧ ∃ g, rc = (codeOfRoutine g r).1

/-- The code of a class. -/
structure ClassCompiledFrom (c : Class Block) (cc : ClassCode) : Prop where
  plain : Plain c.name
  name : cc.name = c.name
  methods : ∀ n, Option.Rel CompiledFrom (c.method? n) (cc.methods.get? n)

/-- The executable holds the code of the given functions and classes. -/
structure Provides (e : Executable) (definitions : List (Routine Block) × List (Class Block)) :
    Prop where
  functions : ∀ r ∈ definitions.1, ∃ rc, e.functions.get? r.name = some rc ∧ CompiledFrom r rc
  classes : ∀ c ∈ definitions.2, ∃ cc, e.classes.get? c.name = some cc ∧ ClassCompiledFrom c cc

theorem Provides.mono {e : Executable} {d d' : List (Routine Block) × List (Class Block)}
    (h : Provides e d) (hfunctions : ∀ r ∈ d'.1, r ∈ d.1) (hclasses : ∀ c ∈ d'.2, c ∈ d.2) :
    Provides e d' :=
  ⟨fun r hr ↦ h.functions r (hfunctions r hr), fun c hc ↦ h.classes c (hclasses c hc)⟩

/-- The variables of the innermost call agree with those of the routine that is walked. -/
def FrameMatches : Option (Bindings Value) → List Call → Prop
  | none, [] => True
  | some locals, call :: _ => ∀ x, Plain x → call.locals.get? x = locals.get? x
  | _, _ => False

/-- The machine, running `e`, is in the state of a walk under the given limits. -/
structure Matches (e : Executable) (limits : Limits) (s : WalkState) (m : Machine) : Prop where
  limits : m.limits = limits
  globals : ∀ x, Plain x → m.globals.get? x = s.globals.get? x
  frame : FrameMatches s.locals m.calls
  functions : ∀ n, Option.Rel CompiledFrom (s.functions.get? n) (m.functions.get? n)
  classes : ∀ n, Option.Rel (fun c cc ↦ c.name = n ∧ ClassCompiledFrom c cc)
    (s.classes.get? n) (m.classes.get? n)
  known : ∀ n cc, m.classes.get? n = some cc → e.classes.get? n = some cc
  heap : s.heap = m.heap.forget
  instances : ∀ cell i, m.heap.instance? cell = some i →
    ∃ cc, m.classes.get? i.className = some cc ∧ i.methods = cc.methods
  steps : m.steps = s.steps
  depth : m.depth = s.depth
  opened : m.depth = m.calls.length
  output : m.output = s.output

namespace Matches

variable {e : Executable} {limits : Limits} {s : WalkState} {m : Machine}

/-- Stack, code and place do not matter. -/
theorem withStack (h : Matches e limits s m) (stack : List Value) :
    Matches e limits s (m.withStack stack) :=
  { h with }

theorem atPlace (h : Matches e limits s m) (place : Nat) :
    Matches e limits s { m with place := place } :=
  { h with }

theorem push (h : Matches e limits s m) (v : Value) : Matches e limits s (m.push v) :=
  { h with }

theorem next (h : Matches e limits s m) :
    Matches e limits { s with steps := s.steps + 1 } m.next :=
  { h with steps := congrArg (· + 1) h.steps }

theorem lookup (h : Matches e limits s m) {x : String} (hx : Plain x) :
    m.lookup x = s.lookup x := by
  have hframe := h.frame
  unfold Machine.lookup WalkState.lookup
  cases hs : s.locals <;> cases hm : m.calls <;> rw [hs, hm] at hframe
  · exact h.globals x hx
  · exact hframe.elim
  · exact hframe.elim
  · next locals call calls =>
    show (call.locals.get? x).or (m.globals.get? x) = (locals.get? x).or (s.globals.get? x)
    rw [hframe x hx, h.globals x hx]

/-- Binding a variable of the program on both sides. -/
theorem bind (h : Matches e limits s m) (name : String) (v : Value) :
    Matches e limits (s.bind name v) (m.bind name v) := by
  obtain ⟨globals, locals, functions, classes, heap, steps, depth, output⟩ := s
  obtain ⟨limits', stack, globals', calls, depth', functions', classes', heap', code, place, steps',
    output'⟩ := m
  have hset {b b' : Bindings Value} (hb : ∀ x, Plain x → b'.get? x = b.get? x) (x : String)
      (hx : Plain x) : (b'.set name v).get? x = (b.set name v).get? x := by
    rw [Bindings.get?_set, Bindings.get?_set, hb x hx]
  have hframe := h.frame
  cases locals <;> cases calls
  · exact { h with globals := hset h.globals }
  · exact hframe.elim
  · exact hframe.elim
  · exact { h with frame := hset hframe }

/-- Binding a hidden variable, which the walk knows nothing of. -/
theorem bind_hidden (h : Matches e limits s m) {name : String} (hname : ¬Plain name)
    (v : Value) : Matches e limits s (m.bind name v) := by
  obtain ⟨limits', stack, globals', calls, depth', functions', classes', heap', code, place, steps',
    output'⟩ := m
  have hset {b : Bindings Value} (x : String) (hx : Plain x) :
      (b.set name v).get? x = b.get? x := by
    refine Bindings.get?_set_of_ne b ?_ v
    rintro rfl
    exact hname hx
  have hframe := h.frame
  cases calls with
  | nil => exact { h with globals := fun x hx ↦ (hset x hx).trans (h.globals x hx) }
  | cons call calls =>
    refine { h with frame := ?_ }
    show FrameMatches s.locals ({ call with locals := call.locals.set name v } :: calls)
    cases hs : s.locals with
    | none =>
      rw [hs] at hframe
      exact hframe.elim
    | some locals =>
      rw [hs] at hframe
      exact fun x hx ↦ (hset x hx).trans (hframe x hx)

/-- An operation on both heaps. -/
theorem onHeap {α : Type} (h : Matches e limits s m) {operation : Heap → Heap.Effect α}
    (hoperation : Heap.Forgetful operation)
    (hkeeps : ∀ heap, Heap.KeepsInstances heap (operation heap).2) :
    Matches e limits { s with heap := (operation s.heap).2 }
      { m with heap := (operation m.heap).2 } where
  limits := h.limits
  globals := h.globals
  frame := h.frame
  functions := h.functions
  classes := h.classes
  known := h.known
  heap := by
    show (operation s.heap).2 = (operation m.heap).2.forget
    rw [h.heap, hoperation]
  instances cell i hi := by
    obtain ⟨j, hj, hname, hmethods⟩ := hkeeps m.heap cell i hi
    obtain ⟨cc, hcc, hmethods'⟩ := h.instances cell j hj
    exact ⟨cc, by rw [hname]; exact hcc, hmethods.trans hmethods'⟩
  steps := h.steps
  depth := h.depth
  opened := h.opened
  output := h.output

theorem result_onHeap {α : Type} (h : Matches e limits s m) {operation : Heap → Heap.Effect α}
    (hoperation : Heap.Forgetful operation) : (operation s.heap).1 = (operation m.heap).1 := by
  rw [h.heap, hoperation]

end Matches

end Offside
