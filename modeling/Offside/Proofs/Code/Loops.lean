import Offside.Proofs.Code.Level
import Offside.Proofs.Machine.Placing

/-!
Counting loops in direct code. The code of a counting loop binds its counter to zero and its bound
in front of the turns, and every turn starts with a comparison of the two. The body stores variables
of the program and hidden ones with higher numbers only, so the loop is placed as one
(`placed_directLoop`) and leads as one (`leads_directLoop`).
-/

set_option autoImplicit false
set_option relaxedAutoImplicit false

namespace Offside

open Machine (Arrives Loop)

/-! ### What code stores -/

section

variable {x : String}

mutual

/-- Computing an expression stores no variable. -/
theorem not_stored_code : ∀ e : Expr, Instr.storeVariable x ∉ e.code
  | .number _ => by simp [Expr.code]
  | .boolean _ => by simp [Expr.code]
  | .variable _ => by simp [Expr.code]
  | .arith _ left right => by simp [Expr.code, not_stored_code left, not_stored_code right]
  | .compare _ left right => by simp [Expr.code, not_stored_code left, not_stored_code right]
  | .call _ args => by simp [Expr.code, not_stored_codeOfExprs args]
  | .list items => by simp [Expr.code, not_stored_codeOfExprs items]
  | .index _ position => by simp [Expr.code, not_stored_code position]
  | .member _ _ => by simp [Expr.code]
  | .methodCall _ _ args => by simp [Expr.code, not_stored_codeOfExprs args]

theorem not_stored_codeOfExprs : ∀ es : List Expr, Instr.storeVariable x ∉ codeOfExprs es
  | [] => List.not_mem_nil
  | e :: es => by simp [codeOfExprs, not_stored_code e, not_stored_codeOfExprs es]

end

end

section

variable {x : String} {i : Bool} {temporaries : Nat}

mutual

/-- A statement stores no hidden variable with the number of a loop before. -/
theorem not_stored_stmt : ∀ (st : Stmt) (start : Nat) (g : Gathered), st.Scoped i Plain →
    HiddenBelow temporaries g.loops x → Instr.storeVariable x ∉ (st.code start g).1
  | .assign name value, _, _, hst, hx => by
    simp [Stmt.code, not_stored_code value, (hx.ne_of_plain hst.1).symm]
  | .assignIndex _ position value, _, _, _, _ => by
    simp [Stmt.code, not_stored_code position, not_stored_code value]
  | .assignAttribute _ _ value, _, _, _, _ => by simp [Stmt.code, not_stored_code value]
  | .print value, _, _, _, _ => by simp [Stmt.code, not_stored_code value]
  | .expr value, _, _, _, _ => by simp [Stmt.code, not_stored_code value]
  | .ifElse condition body [], start, g, hst, hx => by
    rw [code_ifThen]
    simp [not_stored_code condition, not_stored_codeOfBlock body _ g hst.2.1 hx]
  | .ifElse condition body (s :: orelse), start, g, hst, hx => by
    have hx' := hx.mono (Nat.le_refl _)
      (loops_le_codeOfBlock body (start + condition.code.length + 1) g)
    rw [code_ifElse]
    simp [not_stored_code condition, not_stored_codeOfBlock body _ g hst.2.1 hx,
      not_stored_codeOfBlock (s :: orelse) _ _ hst.2.2 hx']
  | .whileLoop condition body, start, g, hst, hx => by
    rw [code_whileLoop]
    simp [not_stored_code condition, not_stored_codeOfBlock body _ g hst.2 hx]
  | .forRange name first stop body, start, g, hst, hx => by
    have hx' : HiddenBelow temporaries (g.loops + 1) x := hx.mono (Nat.le_refl _) (Nat.le_succ _)
    have hbody := blockScoped_mono (Declaring.plain hst.1) hst.2.2.2
    rw [code_forRange]
    simp [forSetup, forHead, forNext, not_stored_code first, not_stored_code stop,
      (hx.ne_of_plain hst.1).symm, (hx.ne_counter (Nat.lt_succ_self _)).symm,
      (hx.ne_bound (Nat.lt_succ_self _)).symm,
      not_stored_codeOfBlock body _ { g with loops := g.loops + 1 } hbody hx']
  | .define routine, _, _, _, _ => by
    rw [Stmt.code]
    split <;> simp
  | .defineClass definition, _, _, _, _ => by
    rw [Stmt.code]
    split <;> simp
  | .return none, _, _, _, _ => by simp [Stmt.code, returnNone]
  | .return (some value), _, _, _, _ => by simp [Stmt.code, not_stored_code value]
  | .pass, _, _, _, _ => by simp [Stmt.code]

theorem not_stored_codeOfBlock : ∀ (block : List Stmt) (start : Nat) (g : Gathered),
    BlockScoped i Plain block → HiddenBelow temporaries g.loops x →
      Instr.storeVariable x ∉ (codeOfBlock start g block).1
  | [], _, _, _, _ => List.not_mem_nil
  | s :: ss, start, g, hblock, hx => by
    have hx' := hx.mono (Nat.le_refl _) (loops_le_code s start g)
    have hrest := blockScoped_mono (Stmt.declared_plain hblock.1) hblock.2
    rw [codeOfBlock_cons]
    simp [not_stored_stmt s start g hblock.1 hx, not_stored_codeOfBlock ss _ _ hrest hx']

end

end

/-! ### Direct code -/

/-- The statement that runs a body with a variable bound to each number below a bound. -/
def rangeLoop (name : String) (stop : Expr) (body : Block) : Stmt :=
  .forRange name (.number (.int 0)) stop body

/-- The counting loop that starts at the given place of direct code. -/
def directLoop (code : Code) (place : Nat) (g : Gathered) (name : String) (stop : Expr)
    (body : Block) : Loop :=
  let turn := place + stop.code.length + 8
  let block := codeOfBlock (turn + 1) { g with loops := g.loops + 1 } body
  { code := code
    entry := place
    stop := place + 2
    fix := place + stop.code.length + 2
    turn := turn
    next := turn + 1 + block.1.length
    exit := turn + 1 + block.1.length + 5
    name := name
    counter := loopCounter (g.loops + 1)
    bound := loopBound (g.loops + 1) }

section

variable {code : Code} {place : Nat} {g : Gathered} {name : String} {stop : Expr} {body : Block}

/-- The code that starts the counter of a loop. -/
def startPart (l : Loop) : List Instr :=
  [.loadConstant (.number (.int 0)), .storeVariable l.counter]

/-- The code at the top of a loop. -/
def headPart (l : Loop) : List Instr :=
  [.loadVariable l.counter, .loadVariable l.bound, .compare .lt, .jumpIfFalse l.exit,
    .loadVariable l.counter]

/-- The code behind the body of a loop. -/
def tailPart (l : Loop) : List Instr :=
  [.loadVariable l.counter, .loadConstant (.number (.int 1)), .arith .add,
    .storeVariable l.counter, .jump (l.fix + 1)]

/-- A counting loop that stands in direct code has its parts there. -/
theorem parts_directLoop (hcode : CodeAt code place ((rangeLoop name stop body).code place g).1) :
    let l := directLoop code place g name stop body
    l.Parts (startPart l) stop.code (headPart l)
      (codeOfBlock (l.turn + 1) { g with loops := g.loops + 1 } body).1 (tailPart l) := by
  intro l
  have hlength : (forSetup (g.loops + 1) (.number (.int 0)) stop).length =
      stop.code.length + 3 := by
    simp [forSetup, Expr.code]
  have htop : place + (stop.code.length + 3) = l.fix + 1 := rfl
  have hturn : l.fix + 1 + 6 = l.turn + 1 := by
    show place + stop.code.length + 2 + 1 + 6 = place + stop.code.length + 8 + 1
    omega
  rw [rangeLoop, code_forRange] at hcode
  simp only [hlength, htop, hturn] at hcode
  obtain ⟨hfront, hnext⟩ := codeAt_append.mp hcode
  obtain ⟨hfront, hblock⟩ := codeAt_append.mp hfront
  obtain ⟨hsetup, hhead⟩ := codeAt_append.mp hfront
  rw [hlength, htop] at hhead
  rw [List.length_append, hlength, ← Nat.add_assoc, htop] at hblock
  rw [List.length_append, List.length_append, hlength, ← Nat.add_assoc, ← Nat.add_assoc,
    htop] at hnext
  exact ⟨hsetup, rfl, Nat.add_right_comm place _ 2, hhead, rfl, hblock, rfl, hnext, rfl⟩

/-- The jumps of a body lead to its places or right behind them. -/
theorem target_codeOfBlock {block : Block} {start target : Nat} {i : Instr}
    (hi : i ∈ (codeOfBlock start g block).1) (htarget : i.target? = some target) :
    start ≤ target ∧ target ≤ start + (codeOfBlock start g block).1.length := by
  obtain ⟨before, after, hcode, rfl, -⟩ :=
    ((emits_codeOfBlock block start g).level.lands i hi target htarget).resolve_left id
  rw [hcode, List.length_append]
  omega

/-- A counting loop that stands in direct code is placed as one. -/
theorem placed_directLoop {i : Bool}
    (hcode : CodeAt code place ((rangeLoop name stop body).code place g).1)
    (hscoped : (rangeLoop name stop body).Scoped i Plain) :
    (directLoop code place g name stop body).Placed := by
  have hname : Plain name := hscoped.1
  have hbody := blockScoped_mono (Declaring.plain hname) hscoped.2.2.2
  have hcounter : HiddenBelow 0 (g.loops + 1) (loopCounter (g.loops + 1)) :=
    .counter (Nat.le_refl _)
  have hbound : HiddenBelow 0 (g.loops + 1) (loopBound (g.loops + 1)) := .bound (Nat.le_refl _)
  refine (parts_directLoop hcode).placed ?_
  constructor
  · intro i hi
    rcases List.mem_append.mp hi with hi | hi
    · simp only [startPart, List.mem_cons, List.not_mem_nil, or_false] at hi
      rcases hi with rfl | rfl <;> rfl
    · exact Instr.computes_target? (computes_code stop i hi)
  · intro i hi t htarget
    simp only [headPart, List.mem_cons, List.not_mem_nil, or_false] at hi
    rcases hi with rfl | rfl | rfl | rfl | rfl <;> cases htarget
    rfl
  · exact fun i hi t htarget ↦ target_codeOfBlock hi htarget
  · intro i hi t htarget
    simp only [tailPart, List.mem_cons, List.not_mem_nil, or_false] at hi
    rcases hi with rfl | rfl | rfl | rfl | rfl <;> cases htarget
    rfl
  · have hne := hcounter.ne_of_plain hname
    simp [directLoop, startPart, not_stored_code stop, hne]
  · exact not_stored_code stop
  · exact not_stored_codeOfBlock body _ { g with loops := g.loops + 1 } hbody hcounter
  · exact not_stored_codeOfBlock body _ { g with loops := g.loops + 1 } hbody hbound
  · exact hcounter.ne_of_plain hname
  · exact hbound.ne_of_plain hname
  · exact loopCounter_ne_loopBound _ _
  · exact List.cons_ne_nil _ _

/-- A counting loop with the parts of direct code leads as one, whatever the executable. -/
theorem leads_of_parts {l : Loop} {bound block : List Instr}
    (h : l.Parts (startPart l) bound (headPart l) block (tailPart l))
    (hplaced : l.Placed) (e : Executable) : l.Leads e := by
  obtain ⟨hzero, hstart, -⟩ := h.setup
  obtain ⟨hcount, hbound, hcompare, hbranch, hagain, -⟩ := h.top
  obtain ⟨hlast, hone, hadd, hstore, hjump, -⟩ := h.behind
  have hstop : l.stop = l.entry + 2 := h.stop_eq
  have hturn : l.turn = l.fix + 1 + 5 := h.turn_eq
  have hexit : l.exit = l.next + 5 := h.exit_eq
  have hsize : l.exit ≤ l.code.size := by
    rw [hexit]
    exact h.behind.le_size (List.cons_ne_nil _ _)
  have hnext := hplaced.turn_lt
  have hne := hplaced.name_ne_counter.symm
  constructor
  · intro m hcode hplace
    rw [← hcode] at hzero hstart
    have hled : Arrives e l.name (fun p ↦ l.entry ≤ p ∧ p < l.stop) m l.entry m.stack m.vars :=
      .here hplace
    obtain ⟨z, hled, hz, -, hvars⟩ :=
      (hled.constant (by omega) hzero).store (by omega) hstart hne
    exact ⟨z, hled, hz.trans hstop.symm, by rw [hvars, Bindings.get?_set_self]; rfl⟩
  · intro m w k n hcode hplace hat hw hk
    rw [← hcode] at hcount hbound hcompare hbranch hagain
    have hled : Arrives e l.name (fun p ↦ l.fix < p ∧ p < l.turn) m (l.fix + 1) m.stack m.vars :=
      .here hplace
    have htest := ((hled.load (by omega) hcount hat.counter).load (by omega) hbound
      hat.bound).compare (by omega) hcompare hw (Nat.le_of_lt hk)
    rw [decide_eq_true hk] at htest
    obtain ⟨z, hled, hz, hstack, hvars⟩ :=
      (htest.pass (by omega) hbranch).load (by omega) hagain hat.counter
    refine ⟨z, hled, hz.trans hturn.symm, ?_, by rw [hstack]; rfl⟩
    exact ⟨hvars ▸ hat.counter, hvars ▸ hat.bound⟩
  · intro m w n hcode hplace hat hw
    rw [← hcode] at hcount hbound hcompare hbranch hsize
    have hled : Arrives e l.name (fun p ↦ l.fix < p ∧ p < l.turn) m (l.fix + 1) m.stack m.vars :=
      .here hplace
    have htest := ((hled.load (by omega) hcount hat.counter).load (by omega) hbound
      hat.bound).compare (by omega) hcompare hw (Nat.le_refl _)
    rw [decide_eq_false (Nat.lt_irrefl _)] at htest
    obtain ⟨z, hled, hz, -, -⟩ := htest.branch (by omega) hbranch hsize
    exact ⟨z, hled, hz⟩
  · intro m w k n hcode hplace hat hw hk
    rw [← hcode] at hlast hone hadd hstore hjump hsize
    have hled : Arrives e l.name (fun p ↦ l.next ≤ p ∧ p < l.exit) m l.next m.stack m.vars :=
      .here hplace
    have hsum := ((hled.load (by omega) hlast hat.counter).constant (by omega) hone).add (by omega)
      hadd hk
    have hfix := hplaced.fix_lt
    obtain ⟨z, hled, hz, -, hvars⟩ :=
      (hsum.store (by omega) hstore hne).jump (by omega) hjump (by omega)
    refine ⟨z, hled, hz, ?_, ?_⟩
    · rw [hvars, Bindings.get?_set_self]
    · rw [hvars, Bindings.get?_set_of_ne _ hplaced.counter_ne_bound]
      exact hat.bound

/-- A counting loop that stands in direct code leads as one. -/
theorem leads_directLoop {i : Bool}
    (hcode : CodeAt code place ((rangeLoop name stop body).code place g).1)
    (hscoped : (rangeLoop name stop body).Scoped i Plain) (e : Executable) :
    (directLoop code place g name stop body).Leads e :=
  leads_of_parts (parts_directLoop hcode) (placed_directLoop hcode hscoped) e

end

end Offside
