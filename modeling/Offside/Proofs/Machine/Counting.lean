import Offside.Proofs.Machine.Forced
import Offside.Proofs.Number.Counting

/-!
Counting loops on the machine. A loop that is placed in a block counts in a hidden variable up to a
bound in another one. What its code has to be is said in two parts: which places it may go to and
which variables it may store (`Loop.Placed`), and where it leads by itself, in front of the body
and behind it (`Loop.Leads`). Then, from the start of the loop on, the frame computes the bound
once, and begins a turn at each number below it in order, whatever the body does
(`Loop.counts_of_trail`).
-/

set_option autoImplicit false
set_option relaxedAutoImplicit false

namespace Offside.Machine

/-- A counting loop in a block. From `entry` on the counter gets its start, from `stop` on the bound
is computed, and at `fix` it is stored. The turns start behind that. The instruction at `turn` binds
the variable of the loop, the body follows up to `next`, and `exit` is behind the loop. -/
structure Loop where
  code : Code
  entry : Nat
  stop : Nat
  fix : Nat
  turn : Nat
  next : Nat
  exit : Nat
  name : String
  counter : String
  bound : String

namespace Loop

/-- The places of the loop are in order. Up to `fix` nothing jumps, jumps behind that stay in the
loop or end it, and those of the body stay there or end the turn. The loop has its variables for
itself, but that the body may bind the one of the program. -/
structure Placed (l : Loop) : Prop where
  entry_le : l.entry ≤ l.stop
  stop_le : l.stop ≤ l.fix
  fix_lt : l.fix < l.turn
  turn_lt : l.turn < l.next
  next_lt : l.next < l.exit
  fixes : l.code[l.fix]? = some (.storeVariable l.bound)
  turns : l.code[l.turn]? = some (.storeVariable l.name)
  straight : ∀ p (i : Instr), l.entry ≤ p → p ≤ l.fix → l.code[p]? = some i → i.target? = none
  closed : ∀ p (i : Instr) t, l.fix < p → p < l.exit → l.code[p]? = some i →
    i.target? = some t → l.fix < t ∧ t ≤ l.exit
  closed_body : ∀ p (i : Instr) t, l.turn < p → p < l.next → l.code[p]? = some i →
    i.target? = some t → l.turn < t ∧ t ≤ l.next
  spares_name : ∀ p, l.entry ≤ p → p ≤ l.fix → l.code[p]? ≠ some (.storeVariable l.name)
  spares_counter : ∀ p, l.stop ≤ p ∧ p < l.fix ∨ l.turn < p ∧ p < l.next →
    l.code[p]? ≠ some (.storeVariable l.counter)
  spares_bound : ∀ p, l.turn < p → p < l.next → l.code[p]? ≠ some (.storeVariable l.bound)
  name_ne_counter : l.name ≠ l.counter
  name_ne_bound : l.name ≠ l.bound
  counter_ne_bound : l.counter ≠ l.bound

/-- The machine has the count and the bound in the variables of the loop. -/
structure At (l : Loop) (k : Nat) (w : Value) (y : Machine) : Prop where
  counter : y.vars.get? l.counter = some (.ofNat k)
  bound : y.vars.get? l.bound = some w

/-- Where the loop leads by itself: to its bound with the counter at zero; from its top to the turn
at a count below the bound, and to its end at the bound; and behind the body to the top, at the next
count. -/
structure Leads (l : Loop) (e : Executable) : Prop where
  enters : ∀ m, m.code = l.code → m.place = l.entry →
    ∃ z, Led e l.name (fun p ↦ l.entry ≤ p ∧ p < l.stop) m z ∧ z.place = l.stop ∧
      z.vars.get? l.counter = some (.ofNat 0)
  begins : ∀ m w k (n : Int64), m.code = l.code → m.place = l.fix + 1 → l.At k w m →
    w.number? = some (.int n) → k < n.toInt.toNat →
    ∃ z, Led e l.name (fun p ↦ l.fix < p ∧ p < l.turn) m z ∧ z.place = l.turn ∧ l.At k w z ∧
      z.stack.head? = some (.ofNat k)
  ends : ∀ m w (n : Int64), m.code = l.code → m.place = l.fix + 1 → l.At n.toInt.toNat w m →
    w.number? = some (.int n) →
    ∃ z, Led e l.name (fun p ↦ l.fix < p ∧ p < l.turn) m z ∧ z.place = l.exit
  advances : ∀ m w k (n : Int64), m.code = l.code → m.place = l.next → l.At k w m →
    w.number? = some (.int n) → k < n.toInt.toNat →
    ∃ z, Led e l.name (fun p ↦ l.next ≤ p ∧ p < l.exit) m z ∧ z.place = l.fix + 1 ∧
      l.At (k + 1) w z

/-! ### The places of the frame -/

/-- Behind `ys`, the frame is at `y`, in the loop, and has passed its places up to `fix` in order,
each once, and these first. -/
structure Flows (l : Loop) (ys : List Machine) (y : Machine) : Prop where
  code : y.code = l.code
  entry_le : l.entry ≤ y.place
  le_exit : y.place ≤ l.exit
  passed : (ys.map Machine.place).filter (· ≤ l.fix) =
    List.range' l.entry (min y.place (l.fix + 1) - l.entry)
  before : y.place ≤ l.fix → ∀ x ∈ ys, x.place < y.place

section

variable {l : Loop} {e : Executable} {m m' y y' z : Machine} {ys ms : List Machine} {w : Value}
  {n : Int64} {k : Nat}

theorem Placed.entry_le_exit (hl : l.Placed) : l.entry ≤ l.exit := by
  have hfix := Nat.le_trans hl.entry_le hl.stop_le
  have hturns := Nat.lt_trans hl.fix_lt (Nat.lt_trans hl.turn_lt hl.next_lt)
  exact Nat.le_trans hfix (Nat.le_of_lt hturns)

/-- In front of the turns the frame goes from place to place. -/
theorem Placed.stride_setup (hl : l.Placed) (hcode : y.code = l.code) (hentry : l.entry ≤ y.place)
    (hfix : y.place ≤ l.fix) (hstride : Stride e y y') : y'.place = y.place + 1 := by
  obtain ⟨i, hi, hleads, -⟩ := hstride.passes
  rw [hcode] at hi
  rcases hleads with ⟨-, hplace⟩ | htarget
  · exact hplace
  · rw [hl.straight y.place i hentry hfix hi] at htarget
    cases htarget

/-- In the turns the frame stays in them, or ends the loop. -/
theorem Placed.stride_turns (hl : l.Placed) (hcode : y.code = l.code) (hfix : l.fix < y.place)
    (hexit : y.place < l.exit) (hstride : Stride e y y') :
    l.fix < y'.place ∧ y'.place ≤ l.exit := by
  obtain ⟨i, hi, hleads, -⟩ := hstride.passes
  rw [hcode] at hi
  rcases hleads with ⟨-, hplace⟩ | htarget
  · omega
  · exact hl.closed y.place i y'.place hfix hexit hi htarget

theorem Flows.passed_append (h : l.Flows ys y) :
    ((ys ++ [y]).map Machine.place).filter (· ≤ l.fix) =
      List.range' l.entry (min (y.place + 1) (l.fix + 1) - l.entry) := by
  have hentry := h.entry_le
  rw [List.map_append, List.filter_append, h.passed, List.map_singleton]
  by_cases hsetup : y.place ≤ l.fix
  · have hlast : [y.place].filter (· ≤ l.fix) = [y.place] := by simp [hsetup]
    rw [hlast, Nat.min_eq_left (by omega), Nat.min_eq_left (by omega),
      show y.place + 1 - l.entry = y.place - l.entry + 1 by omega, List.range'_1_concat,
      Nat.add_sub_cancel' hentry]
  · have hlast : [y.place].filter (· ≤ l.fix) = [] := by simp [Nat.lt_of_not_le hsetup]
    rw [hlast, List.append_nil, Nat.min_eq_right (by omega), Nat.min_eq_right (by omega)]

theorem Flows.stride (hl : l.Placed) (h : l.Flows ys y) (hexit : y.place < l.exit)
    (hstride : Stride e y y') : l.Flows (ys ++ [y]) y' := by
  have hpassed := h.passed_append
  obtain ⟨hcode, hentry, -, -, hbefore⟩ := h
  obtain ⟨i, hi, -, hpasses⟩ := hstride.passes
  have hcode' : y'.code = l.code := hpasses.code.trans hcode
  have hstop := Nat.le_trans hl.entry_le hl.stop_le
  have hfix := hl.fix_lt
  have hturn := hl.turn_lt
  have hnext := hl.next_lt
  by_cases hsetup : y.place ≤ l.fix
  · have hplace := hl.stride_setup hcode hentry hsetup hstride
    have hearlier : ∀ x ∈ ys ++ [y], x.place < y'.place := by
      intro x hx
      rcases List.mem_append.mp hx with hx | hx
      · exact Nat.lt_trans (hbefore hsetup x hx) (by omega)
      · rw [List.mem_singleton.mp hx]
        omega
    exact ⟨hcode', by omega, by omega, by rw [hpassed, hplace], fun _ ↦ hearlier⟩
  · obtain ⟨hfix', hexit'⟩ := hl.stride_turns hcode (by omega) hexit hstride
    refine ⟨hcode', by omega, hexit', ?_, fun hle ↦ by omega⟩
    rw [hpassed, Nat.min_eq_right (by omega), Nat.min_eq_right (by omega)]

/-! ### In front of the turns -/

end

/-- In front of the turns: where the bound is computed, the count is zero. -/
inductive Enters (l : Loop) (e : Executable) (y : Machine) : Prop
  | soon (z : Machine) (hled : Led e l.name (fun p ↦ l.entry ≤ p ∧ p < l.stop) y z)
    (hplace : z.place = l.stop) (hcounter : z.vars.get? l.counter = some (.ofNat 0))
  | now (hstop : l.stop ≤ y.place) (hcounter : y.vars.get? l.counter = some (.ofNat 0))

/-- The places in front of the body and behind it, where the loop leads by itself. -/
def Controls (l : Loop) (p : Nat) : Prop :=
  l.fix < p ∧ p < l.turn ∨ l.next ≤ p ∧ p < l.exit

/-- In the turns, of which `k` have begun. -/
inductive Phase (l : Loop) (e : Executable) (w : Value) (n k : Nat) (y : Machine) : Prop
  | ready (z : Machine) (hk : k < n) (hled : Led e l.name l.Controls y z)
    (hplace : z.place = l.turn) (hat : l.At k w z) (hstack : z.stack.head? = some (.ofNat k))
  | leaving (z : Machine) (hk : k = n) (hled : Led e l.name l.Controls y z)
    (hplace : z.place = l.exit)
  | inside (j : Nat) (hk : k = j + 1) (hj : j < n) (hturn : l.turn < y.place)
    (hnext : y.place < l.next) (hat : l.At j w y)

section

variable {l : Loop} {e : Executable} {m m' y y' z : Machine} {ys ms : List Machine} {w : Value}
  {n : Int64} {k : Nat}

theorem Enters.counter (h : l.Enters e y) (hstop : l.stop ≤ y.place) :
    y.vars.get? l.counter = some (.ofNat 0) := by
  cases h with
  | soon z hled hplace hcounter =>
    rcases Relation.ReflTransGen.cases_head hled with rfl | ⟨x, ⟨-, -, hp⟩, -⟩
    · exact hcounter
    · omega
  | now _ hcounter => exact hcounter

/-- A stride in the loop keeps the variables that its instruction does not store. -/
theorem get?_stride (hcode : y.code = l.code) (hstride : Stride e y y') {x : String}
    (hx : l.code[y.place]? ≠ some (.storeVariable x)) : y'.vars.get? x = y.vars.get? x := by
  obtain ⟨i, hi, -, hpasses⟩ := hstride.passes
  rw [hcode] at hi
  refine hpasses.vars x fun heq ↦ hx ?_
  rw [hi, heq]

theorem Enters.stride (hl : l.Placed) (h : l.Enters e y) (hflows : l.Flows ys y)
    (hfix : y.place < l.fix) (hstride : Stride e y y') : l.Enters e y' := by
  have hnow (hstop : l.stop ≤ y.place) : l.Enters e y' := by
    have hplace := hl.stride_setup hflows.code hflows.entry_le (Nat.le_of_lt hfix) hstride
    refine .now (by omega) ?_
    rw [get?_stride hflows.code hstride (hl.spares_counter y.place (.inl ⟨hstop, hfix⟩))]
    exact h.counter hstop
  cases h with
  | soon z hled hplace hcounter =>
    rcases hled.stride hstride with rfl | ⟨-, -, hrest⟩
    · exact hnow (Nat.le_of_eq hplace.symm)
    · exact .soon z hrest hplace hcounter
  | now hstop hcounter => exact hnow hstop

/-- The bound is stored, and the count is still zero. -/
theorem Enters.fixes (hl : l.Placed) (h : l.Enters e y) (hcode : y.code = l.code)
    (hplace : y.place = l.fix) (hstride : Stride e y y') :
    ∃ w rest, y.stack = w :: rest ∧ y'.code = l.code ∧ y'.place = l.fix + 1 ∧ l.At 0 w y' := by
  have hi : y.code[y.place]? = some (.storeVariable l.bound) := by
    rw [hcode, hplace]
    exact hl.fixes
  obtain ⟨w, rest, hstack, -, hbinds⟩ := hstride.store hi
  refine ⟨w, rest, hstack, hbinds.code.trans hcode, by rw [hbinds.place, hplace], ?_, ?_⟩
  · rw [hbinds.vars, Bindings.get?_set_of_ne _ hl.counter_ne_bound.symm]
    exact h.counter (hplace ▸ hl.stop_le)
  · rw [hbinds.vars, Bindings.get?_set_self]

/-! ### The turns -/

/-- From the top a turn begins at the count, or the loop ends. -/
theorem Leads.phase_top (hleads : l.Leads e) (hled : Led e l.name l.Controls y z)
    (hcode : z.code = l.code) (hplace : z.place = l.fix + 1) (hat : l.At k w z)
    (hw : w.number? = some (.int n)) (hk : k ≤ n.toInt.toNat) :
    l.Phase e w n.toInt.toNat k y := by
  rcases Nat.lt_or_eq_of_le hk with hlt | rfl
  · obtain ⟨z', hled', hz', hat', hstack⟩ := hleads.begins z w k n hcode hplace hat hw hlt
    exact .ready z' hlt (hled.trans (hled'.mono fun _ ↦ .inl)) hz' hat' hstack
  · obtain ⟨z', hled', hz'⟩ := hleads.ends z w n hcode hplace hat hw
    exact .leaving z' rfl (hled.trans (hled'.mono fun _ ↦ .inl)) hz'

/-- In the body a turn goes on, and at its end the next one is due. -/
theorem Leads.phase_body (hleads : l.Leads e) (hcode : y.code = l.code) (hturn : l.turn < y.place)
    (hnext : y.place ≤ l.next) (hat : l.At k w y) (hw : w.number? = some (.int n))
    (hk : k < n.toInt.toNat) : l.Phase e w n.toInt.toNat (k + 1) y := by
  rcases Nat.lt_or_eq_of_le hnext with hlt | heq
  · exact .inside k rfl hk hturn hlt hat
  · obtain ⟨z, hled, hz, hat'⟩ := hleads.advances y w k n hcode heq hat hw hk
    exact hleads.phase_top (hled.mono fun _ ↦ .inr) (hled.passes.code.trans hcode) hz hat' hw hk

/-- A stride from the instruction that binds the variable begins the turn. -/
theorem Leads.phase_turn (hl : l.Placed) (hleads : l.Leads e) (hcode : y.code = l.code)
    (hplace : y.place = l.turn) (hat : l.At k w y) (hstack : y.stack.head? = some (.ofNat k))
    (hw : w.number? = some (.int n)) (hk : k < n.toInt.toNat) (hstride : Stride e y y') :
    Advances e y y' ∧ y'.vars.get? l.name = some (.ofNat k) ∧
      l.Phase e w n.toInt.toNat (k + 1) y' := by
  have hi : y.code[y.place]? = some (.storeVariable l.name) := by
    rw [hcode, hplace]
    exact hl.turns
  obtain ⟨v, rest, hv, hadvances, hbinds⟩ := hstride.store hi
  obtain rfl : v = .ofNat k := by
    rw [hv] at hstack
    exact Option.some.inj hstack
  have hat' : l.At k w y' := by
    constructor
    · rw [hbinds.vars, Bindings.get?_set_of_ne _ hl.name_ne_counter]
      exact hat.counter
    · rw [hbinds.vars, Bindings.get?_set_of_ne _ hl.name_ne_bound]
      exact hat.bound
  have hturn := hl.turn_lt
  have hplace' : y'.place = l.turn + 1 := by rw [hbinds.place, hplace]
  refine ⟨hadvances, by rw [hbinds.vars, Bindings.get?_set_self], ?_⟩
  exact hleads.phase_body (hbinds.code.trans hcode) (by omega) (by omega) hat' hw hk

/-- A stride stays in the turns, and begins the next one if it binds the variable. In front of the
first it leaves the variable as it was. -/
theorem Phase.stride (hl : l.Placed) (hleads : l.Leads e) (h : l.Phase e w n.toInt.toNat k y)
    (hcode : y.code = l.code) (hexit : y.place < l.exit) (hw : w.number? = some (.int n))
    (hstride : Stride e y y') :
    (y.place ≠ l.turn ∧ l.Phase e w n.toInt.toNat k y' ∧
        (k = 0 → y'.vars.get? l.name = y.vars.get? l.name)) ∨
      y.place = l.turn ∧ Advances e y y' ∧ y'.vars.get? l.name = some (.ofNat k) ∧
        l.Phase e w n.toInt.toNat (k + 1) y' := by
  have hturn := hl.turn_lt
  have hne {p : Nat} (hp : l.Controls p) : p ≠ l.turn := by
    rcases hp with hp | hp <;> omega
  cases h with
  | ready z hk hled hplace hat hstack =>
    rcases hled.stride hstride with rfl | ⟨hp, hpasses, hrest⟩
    · exact .inr ⟨hplace, hleads.phase_turn hl hcode hplace hat hstack hw hk hstride⟩
    · exact .inl ⟨hne hp, .ready z hk hrest hplace hat hstack, fun _ ↦ hpasses.vars _ rfl⟩
  | leaving z hk hled hplace =>
    rcases hled.stride hstride with rfl | ⟨hp, hpasses, hrest⟩
    · omega
    · exact .inl ⟨hne hp, .leaving z hk hrest hplace, fun _ ↦ hpasses.vars _ rfl⟩
  | inside j hk hj hturn hnext hat =>
    subst hk
    obtain ⟨i, hi, hleads', hpasses⟩ := hstride.passes
    rw [hcode] at hi
    have hplace : l.turn < y'.place ∧ y'.place ≤ l.next := by
      rcases hleads' with ⟨-, hplace⟩ | htarget
      · omega
      · exact hl.closed_body y.place i y'.place hturn hnext hi htarget
    have hat' : l.At j w y' := by
      constructor
      · rw [get?_stride hcode hstride (hl.spares_counter y.place (.inr ⟨hturn, hnext⟩))]
        exact hat.counter
      · rw [get?_stride hcode hstride (hl.spares_bound y.place hturn hnext)]
        exact hat.bound
    refine .inl ⟨Nat.ne_of_gt hturn, ?_, fun hzero ↦ absurd hzero (Nat.succ_ne_zero j)⟩
    exact hleads.phase_body (hpasses.code.trans hcode) hplace.1 hplace.2 hat' hw hj

/-! ### The loop -/

/-- One of the machines has stored a bound that stands for the given integer. -/
def Yields (l : Loop) (ys : List Machine) (n : Int64) : Prop :=
  ∃ x ∈ ys, x.place = l.fix ∧ ∃ w rest, x.stack = w :: rest ∧ w.number? = some (.int n)

/-- The values of the variable of the loop at the start of its turns. -/
def starts (l : Loop) (e : Executable) (ys : List Machine) : List (Option Value) :=
  (ys.filter (·.place = l.turn)).map fun x ↦ (x.step e).2.vars.get? l.name

/-- Behind `ys`, the frame is at `y`: in front of the turns, or where as many have begun as the
variable has been bound to counts. -/
structure Goes (l : Loop) (e : Executable) (m : Machine) (ys : List Machine) (y : Machine) :
    Prop where
  enters : y.place ≤ l.fix → l.Enters e y ∧ y.vars.get? l.name = m.vars.get? l.name
  turns : ∀ n, l.Yields ys n → ∃ w k, w.number? = some (.int n) ∧
    l.Phase e w n.toInt.toNat k y ∧ l.starts e ys = (List.range k).map (some ∘ Value.ofNat) ∧
      (k = 0 → y.vars.get? l.name = m.vars.get? l.name)

theorem starts_append (l : Loop) (e : Executable) (ys : List Machine) (y : Machine) :
    l.starts e (ys ++ [y]) = l.starts e ys ++
      if y.place = l.turn then [(y.step e).2.vars.get? l.name] else [] := by
  rw [starts, List.filter_append, List.map_append, ← starts]
  split
  · next h => simp [h]
  · next h => simp [h]

theorem Flows.not_yields (h : l.Flows ys y) (hfix : y.place ≤ l.fix) (n : Int64) :
    ¬l.Yields ys n := by
  rintro ⟨x, hx, hplace, -⟩
  have hlt := h.before hfix x hx
  omega

theorem Flows.starts_eq_nil (hl : l.Placed) (h : l.Flows ys y) (hfix : y.place ≤ l.fix) :
    l.starts e (ys ++ [y]) = [] := by
  have hturn := hl.fix_lt
  have hys : ys.filter (·.place = l.turn) = [] := by
    rw [List.filter_eq_nil_iff]
    intro x hx heq
    have hlt := h.before hfix x hx
    have hplace := of_decide_eq_true heq
    omega
  rw [starts_append, starts, hys, if_neg (by omega)]
  rfl

theorem Goes.stride (hl : l.Placed) (hleads : l.Leads e) (h : l.Goes e m ys y)
    (hflows : l.Flows ys y) (hexit : y.place < l.exit) (hstride : Stride e y y') :
    l.Goes e m (ys ++ [y]) y' := by
  have hcode := hflows.code
  have hname (hfix : y.place ≤ l.fix) : y'.vars.get? l.name = m.vars.get? l.name := by
    rw [get?_stride hcode hstride (hl.spares_name y.place hflows.entry_le hfix)]
    exact (h.enters hfix).2
  rcases Nat.lt_trichotomy y.place l.fix with hlt | heq | hgt
  · have hle := Nat.le_of_lt hlt
    refine ⟨fun _ ↦ ⟨(h.enters hle).1.stride hl hflows hlt hstride, hname hle⟩, fun n hyields ↦ ?_⟩
    obtain ⟨x, hx, hplace, hbound⟩ := hyields
    rcases List.mem_append.mp hx with hx | hx
    · exact absurd ⟨x, hx, hplace, hbound⟩ (hflows.not_yields hle n)
    · rw [List.mem_singleton.mp hx] at hplace
      omega
  · -- The bound is stored, and no turn has begun.
    have hle := Nat.le_of_eq heq
    obtain ⟨w, rest, hstack, hcode', hplace', hat⟩ := (h.enters hle).1.fixes hl hcode heq hstride
    refine ⟨fun hfix ↦ by omega, fun n hyields ↦ ?_⟩
    obtain ⟨x, hx, hplace, w', rest', hstack', hw⟩ := hyields
    rcases List.mem_append.mp hx with hx | hx
    · exact absurd ⟨x, hx, hplace, w', rest', hstack', hw⟩ (hflows.not_yields hle n)
    · rw [List.mem_singleton.mp hx, hstack] at hstack'
      obtain rfl := (List.cons.inj hstack').1
      have hphase := hleads.phase_top .refl hcode' hplace' hat hw (Nat.zero_le _)
      exact ⟨w, 0, hw, hphase, hflows.starts_eq_nil hl hle, fun _ ↦ hname hle⟩
  · obtain ⟨hfix', -⟩ := hl.stride_turns hcode hgt hexit hstride
    refine ⟨fun hfix ↦ by omega, fun n hyields ↦ ?_⟩
    obtain ⟨x, hx, hplace, hbound⟩ := hyields
    have hx : x ∈ ys := (List.mem_append.mp hx).resolve_right fun hx ↦ by
      rw [List.mem_singleton.mp hx] at hplace
      omega
    obtain ⟨w, k, hw, hphase, hstarts, hkept⟩ := h.turns n ⟨x, hx, hplace, hbound⟩
    rcases hphase.stride hl hleads hcode hexit hw hstride with
      ⟨hne, hphase', hkept'⟩ | ⟨hturn, ⟨st, -, hstep⟩, hvalue, hphase'⟩
    · refine ⟨w, k, hw, hphase', ?_, fun hk ↦ (hkept' hk).trans (hkept hk)⟩
      rw [starts_append, if_neg hne, List.append_nil, hstarts]
    · refine ⟨w, k + 1, hw, hphase', ?_, fun hk ↦ absurd hk (Nat.succ_ne_zero k)⟩
      rw [starts_append, if_pos hturn, hstep, hvalue, hstarts, List.range_succ, List.map_append]
      rfl

/-- In the loop, a frame that has entered it goes from turn to turn. -/
theorem goes_of_trail (hl : l.Placed) (hleads : l.Leads e) (hcode : m.code = l.code)
    (hplace : m.place = l.entry) (h : Trail (Stride e) m ys y) (hys : ∀ x ∈ ys, x.place < l.exit) :
    l.Flows ys y ∧ l.Goes e m ys y := by
  induction h with
  | start =>
    have hexit := hl.entry_le_exit
    obtain ⟨z, hled, hz, hcounter⟩ := hleads.enters m hcode hplace
    refine ⟨⟨hcode, Nat.le_of_eq hplace.symm, hplace ▸ hexit, ?_, fun _ x hx ↦
      absurd hx List.not_mem_nil⟩, fun _ ↦ ⟨.soon z hled hz hcounter, rfl⟩, ?_⟩
    · rw [hplace, Nat.sub_eq_zero_of_le (Nat.min_le_left _ _)]
      rfl
    · rintro n ⟨x, hx, -⟩
      exact absurd hx List.not_mem_nil
  | step htrail hstride ih =>
    obtain ⟨hearlier, hlast⟩ := List.forall_mem_append.mp hys
    obtain ⟨hflows, hgoes⟩ := ih hearlier
    have hexit := hlast _ (List.mem_singleton_self _)
    exact ⟨hflows.stride hl hexit hstride, hgoes.stride hl hleads hflows hexit hstride⟩

end

/-! ### Runs through the loop -/

/-- The machine is in the loop that `m` enters: in the frame of `m` at one of its places, or in a
call from there. -/
def Within (l : Loop) (m x : Machine) : Prop :=
  m.calls.length < x.calls.length ∨
    x.calls.length = m.calls.length ∧ l.entry ≤ x.place ∧ x.place < l.exit

/-- What a run through the loop does, from `m` to `m'`. The frame of `m` passes the places in front
of the turns in order, at most once, and all of them before the loop ends. If the bound that it
stores is an integer, the values of the variable at the start of the turns are the numbers below it
in order, and all of these where the loop ends; if there are none, the variable is left as it was.
Outside of the body every step is forced: the frame comes to the next turn if there is a number
left, and else to the end of the loop, and a turn comes to its body. -/
structure Counts (l : Loop) (e : Executable) (m : Machine) (ms : List Machine) (m' : Machine) :
    Prop where
  once : ((m.frame ms).map Machine.place).filter (· ≤ l.fix) <+:
    List.range' l.entry (l.fix + 1 - l.entry)
  counts : ∀ n, l.Yields (m.frame ms) n → l.starts e (m.frame ms) <+: (countsBelow n).map some
  computes : m'.calls.length = m.calls.length → m'.place = l.exit →
    ((m.frame ms).map Machine.place).filter (· ≤ l.fix) =
      List.range' l.entry (l.fix + 1 - l.entry)
  ends : m'.calls.length = m.calls.length → m'.place = l.exit →
    ∀ n, l.Yields (m.frame ms) n → l.starts e (m.frame ms) = (countsBelow n).map some
  spares : m'.calls.length = m.calls.length →
    ∀ n, l.Yields (m.frame ms) n → n.toInt ≤ 0 → m'.vars.get? l.name = m.vars.get? l.name
  leads : m'.calls.length = m.calls.length → l.Controls m'.place →
    ∀ n, l.Yields (m.frame ms) n → ∃ z, Led e l.name l.Controls m' z ∧
      z.place = if (l.starts e (m.frame ms)).length < n.toInt.toNat then l.turn else l.exit
  begins : m'.calls.length = m.calls.length → m'.place = l.turn →
    ∀ n, l.Yields (m.frame ms) n →
      ∃ z, Drives e m' z ∧ z.calls.length = m'.calls.length ∧ z.place = l.turn + 1

section

variable {l : Loop} {e : Executable} {m m' y y' z : Machine} {ys ms : List Machine} {w : Value}
  {n : Int64} {k : Nat}

theorem Phase.le {N : Nat} (h : l.Phase e w N k y) : k ≤ N := by
  cases h with
  | ready z hk hled hplace hat hstack => exact Nat.le_of_lt hk
  | leaving z hk hled hplace => exact Nat.le_of_eq hk
  | inside j hk hj hturn hnext hat => exact hk ▸ hj

theorem Phase.eq_of_exit (hl : l.Placed) {N : Nat} (h : l.Phase e w N k y)
    (hexit : y.place = l.exit) : k = N := by
  have hturn := hl.turn_lt
  have hnext := hl.next_lt
  cases h with
  | ready z hk hled hplace hat hstack =>
    rcases Relation.ReflTransGen.cases_head hled with rfl | ⟨x, ⟨-, -, hp⟩, -⟩
    · omega
    · rcases hp with hp | hp <;> omega
  | leaving z hk hled hplace => exact hk
  | inside j hk hj hturn hnext hat => omega

/-- Outside of the body, forced steps lead to the next turn or to the end of the loop. -/
theorem Phase.leads (hl : l.Placed) {N : Nat} (h : l.Phase e w N k y) (hy : l.Controls y.place) :
    ∃ z, Led e l.name l.Controls y z ∧ z.place = if k < N then l.turn else l.exit := by
  have hturn := hl.turn_lt
  cases h with
  | ready z hk hled hplace hat hstack => exact ⟨z, hled, by rw [hplace, if_pos hk]⟩
  | leaving z hk hled hplace =>
    exact ⟨z, hled, by rw [hplace, if_neg (Nat.not_lt_of_le (Nat.le_of_eq hk.symm))]⟩
  | inside j hk hj hturn' hnext' hat => rcases hy with hp | hp <;> omega

/-- The instruction that binds the variable leads to the body. -/
theorem Phase.begins (hl : l.Placed) {N : Nat} (h : l.Phase e w N k y) (hcode : y.code = l.code)
    (hy : y.place = l.turn) :
    ∃ z, Drives e y z ∧ z.calls.length = y.calls.length ∧ z.place = l.turn + 1 := by
  have hturn := hl.turn_lt
  have hnext := hl.next_lt
  have hcontrols : ¬l.Controls y.place := by
    rintro (hp | hp) <;> omega
  cases h with
  | ready z hk hled hplace hat hstack =>
    rcases Relation.ReflTransGen.cases_head hled with rfl | ⟨x, ⟨-, -, hp⟩, -⟩
    · obtain ⟨rest, hrest⟩ := List.head?_eq_some_iff.mp hstack
      have hi : y.code[y.place]? = some (.storeVariable l.name) := by
        rw [hcode, hplace]
        exact hl.turns
      obtain ⟨hdrives, hbinds⟩ := drives_store hi hrest
      exact ⟨_, hdrives, hbinds.depth_eq, by rw [hbinds.place, hy]⟩
    · exact absurd hp hcontrols
  | leaving z hk hled hplace =>
    rcases Relation.ReflTransGen.cases_head hled with rfl | ⟨x, ⟨-, -, hp⟩, -⟩
    · omega
    · exact absurd hp hcontrols
  | inside j hk hj hturn' hnext' hat => omega

theorem range'_of_le {s k N : Nat} (h : k ≤ N) : List.range' s k <+: List.range' s N :=
  ⟨List.range' (s + k) (N - k), by rw [List.range'_append_1, Nat.add_sub_cancel' h]⟩

theorem Flows.once (h : l.Flows ys y) :
    ((ys ++ [y]).map Machine.place).filter (· ≤ l.fix) <+:
      List.range' l.entry (l.fix + 1 - l.entry) := by
  rw [h.passed_append]
  exact range'_of_le (Nat.sub_le_sub_right (Nat.min_le_right _ _) _)

theorem Goes.counts (h : l.Goes e m ys y) (n : Int64) (hyields : l.Yields ys n) :
    l.starts e ys <+: (countsBelow n).map some := by
  obtain ⟨w, k, -, hphase, hstarts, -⟩ := h.turns n hyields
  rw [hstarts, countsBelow, List.map_map, List.range_eq_range', List.range_eq_range']
  exact (range'_of_le hphase.le).map _

theorem Within.depth_le {x : Machine} (h : l.Within m x) : m.calls.length ≤ x.calls.length := by
  rcases h with h | ⟨h, -⟩ <;> omega

theorem Within.place_lt {x : Machine} (h : ∀ x ∈ ms, l.Within m x) (hx : x ∈ m.frame ms) :
    x.place < l.exit := by
  obtain ⟨hx, hdepth⟩ := List.mem_filter.mp hx
  rcases h x hx with hdeeper | ⟨-, -, hlt⟩
  · exact absurd (of_decide_eq_true hdepth) (Nat.ne_of_gt hdeeper)
  · exact hlt

/-- At the end of what it has done, the frame of the loop is at `m'`. -/
theorem counts_here (hl : l.Placed) (hflows : l.Flows (m.frame ms) m')
    (hgoes : l.Goes e m (m.frame ms) m') : l.Counts e m ms m' where
  once := by
    rw [hflows.passed]
    exact range'_of_le (Nat.sub_le_sub_right (Nat.min_le_right _ _) _)
  counts := hgoes.counts
  computes _ hexit := by
    have hfix := hl.fix_lt
    have hturn := hl.turn_lt
    have hnext := hl.next_lt
    rw [hflows.passed, Nat.min_eq_right (by omega)]
  ends _ hexit n hyields := by
    obtain ⟨w, k, -, hphase, hstarts, -⟩ := hgoes.turns n hyields
    rw [hstarts, hphase.eq_of_exit hl hexit, countsBelow, List.map_map]
  spares _ n hyields hn := by
    obtain ⟨w, k, -, hphase, -, hkept⟩ := hgoes.turns n hyields
    have hk := hphase.le
    exact hkept (by omega)
  leads _ hplace n hyields := by
    obtain ⟨w, k, -, hphase, hstarts, -⟩ := hgoes.turns n hyields
    rw [hstarts, List.length_map, List.length_range]
    exact hphase.leads hl hplace
  begins _ hplace n hyields := by
    obtain ⟨w, k, -, hphase, -, -⟩ := hgoes.turns n hyields
    exact hphase.begins hl hflows.code hplace

/-- At the end of what it has done, the frame of the loop is in a call or has been left, from a place
that stores neither the bound nor the variable. -/
theorem counts_away (hframe : m.frame ms = ys ++ [y]) (hdepth : m'.calls.length ≠ m.calls.length)
    (hflows : l.Flows ys y) (hgoes : l.Goes e m ys y) (hfix : y.place ≠ l.fix)
    (hturn : y.place ≠ l.turn) : l.Counts e m ms m' where
  once := by
    rw [hframe]
    exact hflows.once
  counts n hyields := by
    rw [hframe] at hyields ⊢
    obtain ⟨x, hx, hplace, hbound⟩ := hyields
    have hx : x ∈ ys := (List.mem_append.mp hx).resolve_right fun hx ↦
      hfix (List.mem_singleton.mp hx ▸ hplace)
    rw [starts_append, if_neg hturn, List.append_nil]
    exact hgoes.counts n ⟨x, hx, hplace, hbound⟩
  computes hhere := absurd hhere hdepth
  ends hhere := absurd hhere hdepth
  spares hhere := absurd hhere hdepth
  leads hhere := absurd hhere hdepth
  begins hhere := absurd hhere hdepth

/-- Every run through a counting loop counts exactly. A frame that is in a call or has been left is
at a place that stores nothing, so its strides have begun all turns that there are. -/
theorem counts_of_trail (hl : l.Placed) (hleads : l.Leads e) (hcode : m.code = l.code)
    (hplace : m.place = l.entry) (htrail : Trail (Advances e) m ms m')
    (hms : ∀ x ∈ ms, l.Within m x) : l.Counts e m ms m' := by
  have hdepths (x : Machine) (hx : x ∈ ms) : m.calls.length ≤ x.calls.length :=
    (hms x hx).depth_le
  have hplaces (x : Machine) (hx : x ∈ m.frame ms) : x.place < l.exit := Within.place_lt hms hx
  rcases htrail.strides hdepths with ⟨-, hstrides⟩ | ⟨ys, y, hframe, hstrides, hy, haway⟩
  · obtain ⟨hflows, hgoes⟩ := goes_of_trail hl hleads hcode hplace hstrides hplaces
    exact counts_here hl hflows hgoes
  · rw [hframe] at hplaces
    obtain ⟨hflows, hgoes⟩ := goes_of_trail hl hleads hcode hplace hstrides
      fun x hx ↦ hplaces x (List.mem_append_left _ hx)
    have hstores {x : String} {p : Nat} (hx : l.code[p]? = some (.storeVariable x)) :
        y.place ≠ p := by
      rintro rfl
      rw [← hflows.code] at hx
      rcases haway with ⟨o, hcalling⟩ | ⟨hgone, hadvances⟩
      · obtain ⟨i, hi, -, hpushes⟩ := hcalling.instr
        obtain rfl := Option.some.inj (hx.symm.trans hi)
        cases hpushes
      · cases hadvances.eq_returnValue (hy ▸ hgone) hx
    have hdepth : m'.calls.length ≠ m.calls.length := by
      rcases haway with ⟨o, -, -, -, hopened⟩ | ⟨hgone, -⟩
      · exact hy ▸ Nat.ne_of_gt hopened.depth_lt
      · exact Nat.ne_of_lt hgone
    exact counts_away hframe hdepth hflows hgoes (hstores hl.fixes) (hstores hl.turns)

end

end Loop

end Offside.Machine
