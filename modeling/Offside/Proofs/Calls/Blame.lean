import Offside.Proofs.Value.Errors
import Offside.Proofs.Walk.Ensures

/-!
Who is to blame for a wrong number of arguments. The walk is put together again with its two kinds
of calls as a parameter (`Walk.Calls`); with the calls that it has, it is the walk as it was
(`walkWith_plain`). In a walk that blames methods, a method call with a wrong number of arguments
fails with an error of its own choice. `Blames` compares a part of a walk with the same part of the
walk that blames methods: both end alike, but for that error in place of an arity mismatch. It has
one rule for each of the parts that walks are put together from.
-/

set_option autoImplicit false
set_option relaxedAutoImplicit false

namespace Offside

/-- The error with which a walk that blames methods with `e'` ends in place of the given one. -/
def RuntimeError.blamed (e e' : RuntimeError) : RuntimeError :=
  match e with
  | .arityMismatch _ _ _ => e'
  | e => e

def Answer.blamed (a : Answer) (e' : RuntimeError) : Answer :=
  ⟨a.lines, a.error.map (·.blamed e')⟩

namespace Walk

/-- How the two kinds of calls are carried out. -/
structure Calls where
  byName : String → List Value → Walk Value
  byMethod : Value → String → List Value → Walk Value

/-- The calls of a walk. -/
def plain (invoke : Invocation) : Calls :=
  ⟨call invoke, callMethod invoke⟩

/-! ### The walk with any calls -/

mutual

/-- The value of an expression. -/
def evalWith (calls : Calls) : Expr → Walk Value
  | .number n => return .number n
  | .boolean b => return .boolean b
  | .variable name => load name
  | .arith op left right => do
    let a ← evalWith calls left
    let b ← evalWith calls right
    onHeap fun h ↦ h.arith op a b
  | .compare op left right => do
    let a ← evalWith calls left
    let b ← evalWith calls right
    return .boolean (← observe fun h ↦ h.compare op a b)
  | .call name args => do
    calls.byName name (← evalAllWith calls args)
  | .list items => do
    let values ← evalAllWith calls items
    allocate fun h ↦ h.newList values.toArray
  | .index name position => do
    let list ← load name
    let index ← evalWith calls position
    observe fun h ↦ h.loadIndex list index
  | .member object name => do
    let v ← load object
    observe fun h ↦ h.getAttribute v name
  | .methodCall object method args => do
    let receiver ← load object
    calls.byMethod receiver method (← evalAllWith calls args)

def evalAllWith (calls : Calls) : List Expr → Walk (List Value)
  | [] => return []
  | e :: es => do
    let value ← evalWith calls e
    return value :: (← evalAllWith calls es)

end

/-- A turn of a loop on a condition. -/
def whileTurn (limits : Limits) (condition : Walk Value) (body : Walk Completion) (_ : Unit) :
    Walk (Unit ⊕ Completion) := do
  let v ← condition
  if (← get).heap.isTruthy v then
    match ← body with
    | .returned value => return .inr (.returned value)
    | .next =>
      tick limits
      return .inl ()
  else return .inr .next

/-- A turn of a counting loop. -/
def forTurn (limits : Limits) (name : String) (bound : Value) (body : Walk Completion)
    (counter : Value) : Walk (Value ⊕ Completion) := do
  if ← observe fun h ↦ h.compare .lt counter bound then
    store name counter
    match ← body with
    | .returned value => return .inr (.returned value)
    | .next =>
      let next ← onHeap fun h ↦ h.arith .add counter (.number (.int 1))
      tick limits
      return .inl next
  else return .inr .next

mutual

/-- Runs a statement. -/
def execWith (limits : Limits) (fuel : Nat) (calls : Calls) (s : Stmt) : Walk Completion := do
  tick limits
  match s with
  | .assign name value =>
    store name (← evalWith calls value)
    return .next
  | .assignIndex name position value =>
    let list ← load name
    let index ← evalWith calls position
    let value ← evalWith calls value
    onHeap fun h ↦ h.storeIndex list index value
    return .next
  | .assignAttribute object name value =>
    let v ← load object
    let value ← evalWith calls value
    onHeap fun h ↦ h.setAttribute v name value
    return .next
  | .print value =>
    let v ← evalWith calls value
    modify fun s ↦ { s with output := s.output.push (s.heap.text v) }
    return .next
  | .expr value =>
    let _ ← evalWith calls value
    return .next
  | .ifElse condition body orelse =>
    let v ← evalWith calls condition
    if (← get).heap.isTruthy v then execBlockWith limits fuel calls body
    else execBlockWith limits fuel calls orelse
  | .whileLoop condition body =>
    iterate (whileTurn limits (evalWith calls condition) (execBlockWith limits fuel calls body))
      fuel ()
  | .forRange name start stop body =>
    let first ← evalWith calls start
    let bound ← evalWith calls stop
    iterate (forTurn limits name bound (execBlockWith limits fuel calls body)) fuel first
  | .define routine =>
    modify fun s ↦ { s with functions := s.functions.set routine.name routine }
    return .next
  | .defineClass definition =>
    modify fun s ↦ { s with classes := s.classes.set definition.name definition }
    return .next
  | .return none => return .returned .none
  | .return (some value) => return .returned (← evalWith calls value)
  | .pass => return .next

/-- Runs statements in a row, up to one that returns. -/
def execBlockWith (limits : Limits) (fuel : Nat) (calls : Calls) : List Stmt → Walk Completion
  | [] => return .next
  | s :: ss => do
    match ← execWith limits fuel calls s with
    | .returned value => return .returned value
    | .next => execBlockWith limits fuel calls ss

end

/-- Runs the body of a routine on its arguments. -/
def invokeWith (calls : Invocation → Calls) (limits : Limits) : Nat → Invocation
  | 0, _, _ => throw .outOfFuel
  | fuel + 1, r, args => do
    let depth := (← get).depth
    let outer := (← get).locals
    ofExcept (limits.admitEntry r.name r.params args.length depth)
    let locals := Bindings.ofList (r.params.zip args)
    modify fun s ↦ { s with locals := some locals, depth := depth + 1 }
    let completion ← execBlockWith limits fuel (calls (invokeWith calls limits fuel)) r.body
    modify fun s ↦ { s with locals := outer, depth := depth }
    match completion with
    | .returned value => return value
    | .next => return .none

/-- Runs a whole program. -/
def programWith (calls : Invocation → Calls) (limits : Limits) (fuel : Nat) (statements : Block) :
    Walk Unit := do
  match ← execBlockWith limits fuel (calls (invokeWith calls limits fuel)) statements with
  | .next => return ()
  | .returned _ => fail .returnOutsideFunction

/-- The answer of a program that is walked with the given calls. -/
def walkWith (calls : Invocation → Calls) (program : Block) (limits : Limits) (fuel : Nat) :
    Option Answer :=
  answer? (outcome (programWith calls limits fuel program) .initial)

/-! ### Plain calls -/

section

variable (limits : Limits) (fuel : Nat) (invoke : Invocation)

mutual

theorem evalWith_plain : ∀ e : Expr, evalWith (plain invoke) e = eval invoke e
  | .number _ => by rw [evalWith, eval]
  | .boolean _ => by rw [evalWith, eval]
  | .variable _ => by rw [evalWith, eval]
  | .arith _ left right => by
    rw [evalWith, eval, evalWith_plain left, evalWith_plain right]
  | .compare _ left right => by
    rw [evalWith, eval, evalWith_plain left, evalWith_plain right]
  | .call _ args => by
    rw [evalWith, eval, evalAllWith_plain args]
    rfl
  | .list items => by rw [evalWith, eval, evalAllWith_plain items]
  | .index _ position => by rw [evalWith, eval, evalWith_plain position]
  | .member _ _ => by rw [evalWith, eval]
  | .methodCall _ _ args => by
    rw [evalWith, eval, evalAllWith_plain args]
    rfl

theorem evalAllWith_plain : ∀ es : List Expr, evalAllWith (plain invoke) es = evalAll invoke es
  | [] => by rw [evalAllWith, evalAll]
  | e :: es => by rw [evalAllWith, evalAll, evalWith_plain e, evalAllWith_plain es]

end

mutual

theorem execWith_plain : ∀ s : Stmt,
    execWith limits fuel (plain invoke) s = exec limits fuel invoke s
  | .assign _ _ => by rw [execWith, exec, evalWith_plain]
  | .assignIndex _ _ _ => by rw [execWith, exec, evalWith_plain, evalWith_plain]
  | .assignAttribute _ _ _ => by rw [execWith, exec, evalWith_plain]
  | .print _ => by rw [execWith, exec, evalWith_plain]
  | .expr _ => by rw [execWith, exec, evalWith_plain]
  | .ifElse _ body orelse => by
    rw [execWith, exec, evalWith_plain, execBlockWith_plain body, execBlockWith_plain orelse]
  | .whileLoop _ body => by
    rw [execWith, exec, evalWith_plain, execBlockWith_plain body]
    rfl
  | .forRange _ _ _ body => by
    rw [execWith, exec, evalWith_plain, evalWith_plain, execBlockWith_plain body]
    rfl
  | .define _ => by rw [execWith, exec]
  | .defineClass _ => by rw [execWith, exec]
  | .return none => by rw [execWith, exec]
  | .return (some _) => by rw [execWith, exec, evalWith_plain]
  | .pass => by rw [execWith, exec]

theorem execBlockWith_plain : ∀ block : List Stmt,
    execBlockWith limits fuel (plain invoke) block = execBlock limits fuel invoke block
  | [] => by rw [execBlockWith, execBlock]
  | s :: ss => by
    rw [execBlockWith, execBlock, execWith_plain s]
    refine bind_congr fun c ↦ ?_
    cases c with
    | returned value => rfl
    | next => exact execBlockWith_plain ss

end

end

theorem invokeWith_plain (limits : Limits) (fuel : Nat) :
    invokeWith plain limits fuel = invoke limits fuel := by
  induction fuel with
  | zero => rfl
  | succ fuel ih =>
    funext r args
    rw [invokeWith, ih, execBlockWith_plain]
    rfl

/-- With the calls that it has, the walk is as it was, for every program. -/
theorem walkWith_plain (program : Block) (limits : Limits) (fuel : Nat) :
    walkWith plain program limits fuel = walk program limits fuel := by
  rw [walkWith, walk_eq_answer?, programWith, invokeWith_plain, execBlockWith_plain]
  rfl

/-! ### Blaming methods -/

/-- Whether a method is there and takes another number of arguments. -/
def misfits (s : WalkState) (receiver : Value) (name : String) (count : Nat) : Bool :=
  match receiver with
  | .list _ => (ListMethod.ofName? name).any fun m ↦ count ≠ m.arity
  | .object cell =>
    ((s.classes.get? (s.heap.className cell)).bind fun c ↦ c.method? name).any
      fun r ↦ r.params.length ≠ count + 1
  | _ => false

/-- Calls of which those of methods fail with the given error where the number of arguments is
wrong. -/
def blaming (e' : RuntimeError) (invoke : Invocation) : Calls where
  byName := call invoke
  byMethod receiver name args := do
    if misfits (← get) receiver name args.length then fail e'
    else callMethod invoke receiver name args

/-- The part `x` of a walk ends in `Q` as the part `y` does, and in an error as `y` does but for
`e'` in place of an arity mismatch. Where names are told apart strictly, it meets none that stands
for nothing. -/
def Blames {α : Type} (strict : Prop) (e' : RuntimeError) (x y : Walk α) (s : WalkState)
    (Q : α → WalkState → Prop) : Prop :=
  match outcome x s with
  | (.ok a, s') => outcome y s = (.ok a, s') ∧ Q a s'
  | (.error .outOfFuel, _) => True
  | (.error (.error e), s') =>
    outcome y s = (.error (.error (e.blamed e')), s') ∧ (strict → ∀ n, e ≠ .undefinedFunction n)

/-- An interruption by no error that calls by name can cause. -/
def Blameless (i : Interrupt) (_ : WalkState) : Prop :=
  ∀ e, i = .error e → ¬e.IsArityMismatch ∧ ∀ n, e ≠ .undefinedFunction n

section

variable {α β σ : Type} {strict : Prop} {e' : RuntimeError} {s : WalkState}
  {P Q : α → WalkState → Prop}

theorem blamed_of_not_arityMismatch {e : RuntimeError} (h : ¬e.IsArityMismatch) :
    e.blamed e' = e := by
  cases e with
  | arityMismatch name expected found => exact absurd trivial h
  | _ => rfl

theorem blameless_error {e : RuntimeError} (h : ¬e.IsArityMismatch)
    (hname : ∀ n, e ≠ .undefinedFunction n) : Blameless (.error e) s := by
  intro e₁ he
  cases he
  exact ⟨h, hname⟩

theorem blameless_valueError {e : RuntimeError} (h : e.IsValueError) : Blameless (.error e) s := by
  refine blameless_error ?_ fun n hn ↦ by rw [hn] at h; exact h
  cases e <;> first | exact id | exact h.elim

theorem Blames.mono {x y : Walk α} (h : Blames strict e' x y s P)
    (hQ : ∀ a s', P a s' → Q a s') : Blames strict e' x y s Q := by
  unfold Blames at h ⊢
  split at h
  · exact ⟨h.1, hQ _ _ h.2⟩
  · trivial
  · exact h

/-- What is the same on both sides. -/
theorem blames_same {x : Walk α} (h : Ensures x s Q Blameless) : Blames strict e' x x s Q := by
  unfold Ensures at h
  unfold Blames
  generalize outcome x s = o at h ⊢
  obtain ⟨(e | _) | a, s'⟩ := o
  · obtain ⟨harity, hname⟩ := h e rfl
    exact ⟨by rw [blamed_of_not_arityMismatch harity], fun _ ↦ hname⟩
  · trivial
  · exact ⟨rfl, h⟩

theorem blames_pure {a : α} (h : Q a s) : Blames strict e' (pure a) (pure a) s Q :=
  blames_same (x := pure a) h

theorem blames_fail {e : RuntimeError} (h : ¬e.IsArityMismatch)
    (hname : ∀ n, e ≠ .undefinedFunction n) : Blames strict e' (fail e) (fail e) s Q :=
  blames_same (x := fail e) (blameless_error (s := s) h hname)

/-- Parts of a walk in a row, with what holds between them. -/
theorem Blames.bind {x y : Walk β} {f g : β → Walk α} {P : β → WalkState → Prop}
    (hx : Blames strict e' x y s P)
    (hf : ∀ b s', P b s' → Blames strict e' (f b) (g b) s' Q) :
    Blames strict e' (x >>= f) (y >>= g) s Q := by
  unfold Blames at hx ⊢
  rw [outcome_bind, outcome_bind]
  generalize outcome x s = o at hx ⊢
  obtain ⟨(e | _) | b, s'⟩ := o
  · rw [hx.1]
    exact ⟨rfl, hx.2⟩
  · trivial
  · have hrest := hf b s' hx.2
    unfold Blames at hrest
    rw [hx.1]
    exact hrest

theorem blames_get_bind {f g : WalkState → Walk α}
    (h : Blames strict e' (f s) (g s) s Q) :
    Blames strict e' (get >>= f) (get >>= g) s Q :=
  h

theorem blames_modify_bind {k : WalkState → WalkState} {f g : Unit → Walk α}
    (h : Blames strict e' (f ()) (g ()) (k s) Q) :
    Blames strict e' (modify k >>= f) (modify k >>= g) s Q :=
  h

theorem blames_tick {limits : Limits} {Q : Unit → WalkState → Prop}
    (h : Q () { s with steps := s.steps + 1 }) :
    Blames strict e' (tick limits) (tick limits) s Q := by
  refine blames_same (ensures_get_bind.mpr (Ensures.bind (P := fun _ s' ↦ s' = s) ?_ ?_))
  · refine ensures_ofExcept (fun _ _ ↦ rfl) fun e he ↦ ?_
    obtain ⟨limit, rfl⟩ := Limits.admitStep_eq_error he
    exact blameless_error id fun n hn ↦ by cases hn
  · rintro _ _ rfl
    exact h

/-- Loops keep an invariant if their turns do. -/
theorem blames_iterate {turn turn' : σ → Walk (σ ⊕ α)} {I : σ → WalkState → Prop}
    (hturn : ∀ x s, I x s →
      Blames strict e' (turn x) (turn' x) s fun r s' ↦ r.elim (fun y ↦ I y s') fun a ↦ Q a s')
    (fuel : Nat) :
    ∀ x s, I x s → Blames strict e' (iterate turn fuel x) (iterate turn' fuel x) s Q := by
  induction fuel with
  | zero => exact fun _ _ _ ↦ trivial
  | succ fuel ih =>
    intro x s hx
    rw [iterate, iterate]
    refine (hturn x s hx).bind fun r s' hr ↦ ?_
    cases r with
    | inl y => exact ih y s' hr
    | inr a => exact blames_pure hr

end

end Walk

end Offside
