import Offside.Code.Direct

/-!
Instructions at a place of a block, and equations for direct lowering, with the parts of a result
named instead of matched. Loops are numbered upwards.
-/

set_option autoImplicit false
set_option relaxedAutoImplicit false

namespace Offside

/-! ### Code in place -/

/-- The block holds the given instructions from the given place on. -/
def CodeAt (code : Code) (place : Nat) : List Instr → Prop
  | [] => True
  | i :: is => code[place]? = some i ∧ CodeAt code (place + 1) is

theorem codeAt_append {code : Code} {first rest : List Instr} :
    ∀ {place : Nat}, CodeAt code place (first ++ rest) ↔
      CodeAt code place first ∧ CodeAt code (place + first.length) rest := by
  induction first with
  | nil => simp [CodeAt]
  | cons i is ih =>
    intro place
    rw [List.cons_append, CodeAt, CodeAt, ih, and_assoc, List.length_cons, Nat.add_assoc,
      Nat.add_comm 1]

theorem codeAt_toArray (before is after : List Instr) :
    CodeAt (before ++ is ++ after).toArray before.length is := by
  induction is generalizing before with
  | nil => trivial
  | cons i is ih =>
    refine ⟨by simp, ?_⟩
    have hrest := ih (before ++ [i])
    rwa [List.length_append, List.append_assoc before [i] is] at hrest

/-- Code that is not empty ends within its block. -/
theorem CodeAt.le_size {code : Code} {is : List Instr} :
    ∀ {place : Nat}, CodeAt code place is → is ≠ [] → place + is.length ≤ code.size := by
  induction is with
  | nil => exact fun _ hne ↦ absurd rfl hne
  | cons i is ih =>
    intro place h _
    obtain ⟨hlt, -⟩ := Array.getElem?_eq_some_iff.mp h.1
    cases is with
    | nil => exact hlt
    | cons j is =>
      have hrest := ih h.2 (List.cons_ne_nil j is)
      simp only [List.length_cons] at hrest ⊢
      omega

/-- Within the places of code, the block holds an instruction of it. -/
theorem CodeAt.mem {code : Code} {is : List Instr} :
    ∀ {place p : Nat}, CodeAt code place is → place ≤ p → p < place + is.length →
      ∃ i ∈ is, code[p]? = some i := by
  induction is with
  | nil => exact fun _ hle hlt ↦ absurd hlt (Nat.not_lt_of_le hle)
  | cons i is ih =>
    intro place p h hle hlt
    rw [List.length_cons] at hlt
    rcases Nat.lt_or_eq_of_le hle with hgt | rfl
    · obtain ⟨j, hj, hcode⟩ := ih h.2 hgt (by omega)
      exact ⟨j, List.mem_cons_of_mem i hj, hcode⟩
    · exact ⟨i, List.mem_cons_self, h.1⟩

/-- What code does not hold stands nowhere within its places. -/
theorem CodeAt.ne {code : Code} {is : List Instr} {i : Instr} {place p : Nat}
    (h : CodeAt code place is) (hi : i ∉ is) (hle : place ≤ p) (hlt : p < place + is.length) :
    code[p]? ≠ some i := by
  obtain ⟨j, hj, hcode⟩ := h.mem hle hlt
  intro heq
  rw [hcode] at heq
  exact hi (Option.some.inj heq ▸ hj)

/-! ### The code of statements -/

section

variable (start : Nat) (g : Gathered)

/-- A conditional without an `else`. -/
theorem code_ifThen (condition : Expr) (body : Block) :
    (Stmt.ifElse condition body []).code start g =
      let block := codeOfBlock (start + condition.code.length + 1) g body
      (condition.code ++
        .jumpIfFalse (start + condition.code.length + 1 + block.1.length) :: block.1, block.2) := by
  rw [Stmt.code]
  rfl

theorem code_ifElse (condition : Expr) (body : Block) (s : Stmt) (orelse : Block) :
    (Stmt.ifElse condition body (s :: orelse)).code start g =
      let bodyStart := start + condition.code.length + 1
      let first := codeOfBlock bodyStart g body
      let elseStart := bodyStart + first.1.length + 1
      let second := codeOfBlock elseStart first.2 (s :: orelse)
      (condition.code ++ .jumpIfFalse elseStart :: first.1 ++
        .jump (elseStart + second.1.length) :: second.1, second.2) := by
  rw [Stmt.code]
  rfl

theorem code_whileLoop (condition : Expr) (body : Block) :
    (Stmt.whileLoop condition body).code start g =
      let block := codeOfBlock (start + condition.code.length + 1) g body
      (condition.code ++
        .jumpIfFalse (start + condition.code.length + 1 + block.1.length + 1) :: block.1 ++
        [.jump start], block.2) := by
  rw [Stmt.code]

/-- The code in front of a counting loop, which binds its counter and its bound. -/
def forSetup (loop : Nat) (first stop : Expr) : List Instr :=
  first.code ++ .storeVariable (loopCounter loop) :: stop.code ++
    [.storeVariable (loopBound loop)]

/-- The code at the top of a counting loop. -/
def forHead (loop : Nat) (name : String) (target : Nat) : List Instr :=
  [.loadVariable (loopCounter loop), .loadVariable (loopBound loop), .compare .lt,
    .jumpIfFalse target, .loadVariable (loopCounter loop), .storeVariable name]

/-- The code at the end of a counting loop. -/
def forNext (loop top : Nat) : List Instr :=
  [.loadVariable (loopCounter loop), .loadConstant (.number (.int 1)), .arith .add,
    .storeVariable (loopCounter loop), .jump top]

theorem code_forRange (name : String) (first stop : Expr) (body : Block) :
    (Stmt.forRange name first stop body).code start g =
      let loop := g.loops + 1
      let top := start + (forSetup loop first stop).length
      let block := codeOfBlock (top + 6) { g with loops := loop } body
      (forSetup loop first stop ++ forHead loop name (top + 6 + block.1.length + 5) ++ block.1 ++
        forNext loop top, block.2) := by
  rw [Stmt.code]
  rfl

theorem codeOfBlock_cons (s : Stmt) (ss : Block) :
    codeOfBlock start g (s :: ss) =
      let first := s.code start g
      let rest := codeOfBlock (start + first.1.length) first.2 ss
      (first.1 ++ rest.1, rest.2) := by
  rw [codeOfBlock]

theorem codeOfRoutine_eq (r : Routine Block) :
    codeOfRoutine g r =
      let block := codeOfBlock 0 g r.body
      (⟨r.name, r.params, (block.1 ++ returnNone).toArray⟩, block.2) := by
  obtain ⟨name, params, body⟩ := r
  rw [codeOfRoutine]

end

/-! ### The numbers of loops -/

mutual

/-- Loops are numbered upwards. -/
theorem loops_le_code : ∀ (st : Stmt) (start : Nat) (g : Gathered),
    g.loops ≤ (st.code start g).2.loops
  | .assign _ _, _, _ => Nat.le_refl _
  | .assignIndex _ _ _, _, _ => Nat.le_refl _
  | .assignAttribute _ _ _, _, _ => Nat.le_refl _
  | .print _, _, _ => Nat.le_refl _
  | .ifElse condition body [], start, g => by
    rw [code_ifThen]
    exact loops_le_codeOfBlock body _ g
  | .ifElse condition body (s :: orelse), start, g => by
    rw [code_ifElse]
    exact Nat.le_trans (loops_le_codeOfBlock body _ g) (loops_le_codeOfBlock (s :: orelse) _ _)
  | .whileLoop condition body, start, g => by
    rw [code_whileLoop]
    exact loops_le_codeOfBlock body _ g
  | .forRange name first stop body, start, g => by
    rw [code_forRange]
    exact Nat.le_trans (Nat.le_succ g.loops)
      (loops_le_codeOfBlock body _ { g with loops := g.loops + 1 })
  | .define routine, start, g => by
    rw [Stmt.code]
    split
    · exact Nat.le_refl _
    · exact loops_le_codeOfRoutine routine g
  | .defineClass definition, start, g => by
    rw [Stmt.code]
    split
    · exact Nat.le_refl _
    · exact loops_le_codeOfClass definition g
  | .return none, _, _ => Nat.le_refl _
  | .return (some _), _, _ => Nat.le_refl _
  | .expr _, _, _ => Nat.le_refl _
  | .pass, _, _ => Nat.le_refl _

theorem loops_le_codeOfBlock : ∀ (block : List Stmt) (start : Nat) (g : Gathered),
    g.loops ≤ (codeOfBlock start g block).2.loops
  | [], _, _ => Nat.le_refl _
  | s :: ss, start, g => by
    rw [codeOfBlock_cons]
    exact Nat.le_trans (loops_le_code s start g) (loops_le_codeOfBlock ss _ _)

theorem loops_le_codeOfRoutine : ∀ (r : Routine (List Stmt)) (g : Gathered),
    g.loops ≤ (codeOfRoutine g r).2.loops
  | ⟨_, _, body⟩, g => loops_le_codeOfBlock body 0 g

theorem loops_le_codeOfMethods : ∀ (ms : List (Routine (List Stmt))) (g : Gathered)
    (done : Bindings (Routine Code)), g.loops ≤ (codeOfMethods g done ms).2.loops
  | [], _, _ => Nat.le_refl _
  | m :: ms, g, done => by
    rw [codeOfMethods]
    exact Nat.le_trans (loops_le_codeOfRoutine m g) (loops_le_codeOfMethods ms _ _)

theorem loops_le_codeOfClass : ∀ (c : Class (List Stmt)) (g : Gathered),
    g.loops ≤ (codeOfClass g c).2.loops
  | ⟨_, methods⟩, g => loops_le_codeOfMethods methods g .empty

end

end Offside
