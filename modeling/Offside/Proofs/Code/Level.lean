import Offside.Proofs.Code
import Offside.Proofs.Code.Climb

/-!
Direct lowering gives level code. The code of an expression leaves one value more on the stack, that
of a statement nothing, and every jump of a statement lands in its own code or right behind it. What
lowering gathers on the way is complete at each moment (`Gathered.Complete`): the bodies of routines
end with returns, and all that a body defines has been gathered before it.
-/

set_option autoImplicit false
set_option relaxedAutoImplicit false

namespace Offside

/-! ### Expressions -/

theorem climbs_append_instr {xs : List Instr} {i : Instr} {h h' h'' : Nat} (hxs : Climbs h xs h')
    (hleaves : i.leaves = false) (hpops : i.pops ≤ h') (hpushes : h'' + i.pops = h' + i.pushes) :
    Climbs h (xs ++ [i]) h'' :=
  hxs.append (climbs_instr hleaves hpops hpushes)

theorem climbs_cons_load {xs : List Instr} {h h' : Nat} (name : String)
    (hxs : Climbs (h + 1) xs h') : Climbs h (.loadVariable name :: xs) h' :=
  (climbs_instr (i := .loadVariable name) rfl (Nat.zero_le h) rfl).append hxs

mutual

/-- An expression leaves its value on the stack. -/
theorem climbs_code : ∀ (e : Expr) (h : Nat), Climbs h e.code (h + 1)
  | .number _, h => climbs_instr rfl (Nat.zero_le h) rfl
  | .boolean _, h => climbs_instr rfl (Nat.zero_le h) rfl
  | .variable _, h => climbs_instr rfl (Nat.zero_le h) rfl
  | .arith op left right, h =>
    climbs_append_instr (i := .arith op) ((climbs_code left h).append (climbs_code right (h + 1)))
      rfl (Nat.le_add_left 2 h) rfl
  | .compare op left right, h =>
    climbs_append_instr (i := .compare op) ((climbs_code left h).append (climbs_code right (h + 1)))
      rfl (Nat.le_add_left 2 h) rfl
  | .call name args, h =>
    climbs_append_instr (i := .callFunction name args.length) (climbs_codeOfExprs args h) rfl
      (Nat.le_add_left _ _) (Nat.add_right_comm _ _ _)
  | .list items, h =>
    climbs_append_instr (i := .buildList items.length) (climbs_codeOfExprs items h) rfl
      (Nat.le_add_left _ _) (Nat.add_right_comm _ _ _)
  | .index name position, h =>
    climbs_cons_load name (climbs_append_instr (i := .loadIndex) (climbs_code position (h + 1)) rfl
      (Nat.le_add_left 2 h) rfl)
  | .member object name, h =>
    climbs_cons_load object (climbs_instr (i := .loadAttribute name) rfl (Nat.le_add_left 1 h) rfl)
  | .methodCall object method args, h =>
    climbs_cons_load object (climbs_append_instr (i := .callMethod method args.length)
      (climbs_codeOfExprs args (h + 1)) rfl
      (by show args.length + 1 ≤ h + 1 + args.length; omega)
      (by show h + 1 + (args.length + 1) = h + 1 + args.length + 1; omega))

/-- Expressions leave their values on the stack. -/
theorem climbs_codeOfExprs : ∀ (es : List Expr) (h : Nat),
    Climbs h (codeOfExprs es) (h + es.length)
  | [], _ => rfl
  | e :: es, h => by
    rw [List.length_cons, Nat.add_comm es.length, ← Nat.add_assoc]
    exact (climbs_code e h).append (climbs_codeOfExprs es (h + 1))

end

theorem computes_append {xs ys : List Instr} (hxs : ∀ i ∈ xs, i.computes = true)
    (hys : ∀ i ∈ ys, i.computes = true) : ∀ i ∈ xs ++ ys, i.computes = true :=
  fun i hi ↦ (List.mem_append.mp hi).elim (hxs i) (hys i)

theorem computes_singleton {i : Instr} (h : i.computes = true) : ∀ j ∈ [i], j.computes = true :=
  fun _ hj ↦ List.mem_singleton.mp hj ▸ h

mutual

theorem computes_code : ∀ (e : Expr), ∀ i ∈ e.code, i.computes = true
  | .number _ => computes_singleton rfl
  | .boolean _ => computes_singleton rfl
  | .variable _ => computes_singleton rfl
  | .arith _ left right =>
    computes_append (computes_append (computes_code left) (computes_code right))
      (computes_singleton rfl)
  | .compare _ left right =>
    computes_append (computes_append (computes_code left) (computes_code right))
      (computes_singleton rfl)
  | .call _ args => computes_append (computes_codeOfExprs args) (computes_singleton rfl)
  | .list items => computes_append (computes_codeOfExprs items) (computes_singleton rfl)
  | .index name position =>
    computes_append (computes_append (computes_singleton (i := .loadVariable name) rfl)
      (computes_code position)) (computes_singleton rfl)
  | .member object _ =>
    computes_append (computes_singleton (i := .loadVariable object) rfl) (computes_singleton rfl)
  | .methodCall object _ args =>
    computes_append (computes_append (computes_singleton (i := .loadVariable object) rfl)
      (computes_codeOfExprs args)) (computes_singleton rfl)

theorem computes_codeOfExprs : ∀ (es : List Expr), ∀ i ∈ codeOfExprs es, i.computes = true
  | [] => fun _ hi ↦ absurd hi List.not_mem_nil
  | e :: es => computes_append (computes_code e) (computes_codeOfExprs es)

end

/-! ### Executables -/

namespace Executable

/-- A function of the executable, or a method of one of its classes. -/
inductive Holds (e : Executable) (r : Routine Code) : Prop
  | function (name : String) (h : e.functions.get? name = some r)
  | method (name : String) (c : ClassCode) (methodName : String)
    (hc : e.classes.get? name = some c) (h : c.methods.get? methodName = some r)

/-- The executable has an entry for what the instruction defines, if it defines something. -/
def Resolves (e : Executable) : Instr → Prop
  | .defineFunction name => e.functions.has name = true
  | .defineClass name => e.classes.has name = true
  | _ => True

theorem resolves_of_computes (e : Executable) {i : Instr} (h : i.computes = true) :
    e.Resolves i := by
  cases i <;> first | exact trivial | cases h

/-- The executable has an entry for every definition in its code, and its code has heights: the main
block those of a main block, and all others those of a routine. -/
structure Balanced (e : Executable) : Prop where
  main : e.main.BalancedMain
  routines : ∀ r, e.Holds r → r.body.BalancedRoutine
  resolvesMain : ∀ i ∈ e.main, e.Resolves i
  resolves : ∀ r, e.Holds r → ∀ i ∈ r.body, e.Resolves i

end Executable

/-! ### What is gathered -/

namespace Gathered

/-- Nothing is lost. -/
structure Le (g g' : Gathered) : Prop where
  functions : ∀ n, g.functions.has n = true → g'.functions.has n = true
  classes : ∀ n, g.classes.has n = true → g'.classes.has n = true

theorem Le.refl (g : Gathered) : g.Le g :=
  ⟨fun _ h ↦ h, fun _ h ↦ h⟩

theorem Le.trans {g g' g'' : Gathered} (h : g.Le g') (h' : g'.Le g'') : g.Le g'' :=
  ⟨fun n hn ↦ h'.functions n (h.functions n hn), fun n hn ↦ h'.classes n (h.classes n hn)⟩

/-- What has been gathered has an entry for all that the instruction defines. -/
def Resolves (g : Gathered) (i : Instr) : Prop :=
  (g.executable []).Resolves i

theorem Resolves.mono {g g' : Gathered} {i : Instr} (h : g.Resolves i) (hle : g.Le g') :
    g'.Resolves i := by
  cases i with
  | defineFunction name => exact hle.functions name h
  | defineClass name => exact hle.classes name h
  | _ => exact trivial

/-- A routine with the code of a routine, all of whose definitions have been gathered. -/
structure Closed (g : Gathered) (r : Routine Code) : Prop where
  balanced : r.body.BalancedRoutine
  resolves : ∀ i ∈ r.body, g.Resolves i

theorem Closed.mono {g g' : Gathered} {r : Routine Code} (h : g.Closed r) (hle : g.Le g') :
    g'.Closed r :=
  ⟨h.balanced, fun i hi ↦ (h.resolves i hi).mono hle⟩

/-- All routines that have been gathered are closed. -/
def Complete (g : Gathered) : Prop :=
  ∀ r, (g.executable []).Holds r → g.Closed r

theorem complete_initial : Complete .initial := by
  intro r hr
  cases hr with
  | function name h => cases h
  | method name c methodName hc h => cases hc

theorem le_addFunction (g : Gathered) (name : String) (r : Routine Code) :
    g.Le { g with functions := g.functions.set name r } :=
  ⟨fun _ hn ↦ Bindings.has_set.mpr (.inr hn), fun _ hn ↦ hn⟩

theorem le_addClass (g : Gathered) (name : String) (c : ClassCode) :
    g.Le { g with classes := g.classes.set name c } :=
  ⟨fun _ hn ↦ hn, fun _ hn ↦ Bindings.has_set.mpr (.inr hn)⟩

theorem Complete.addFunction {g : Gathered} {r : Routine Code} (h : g.Complete) (hr : g.Closed r)
    (name : String) : Complete { g with functions := g.functions.set name r } := by
  intro r' hr'
  refine Closed.mono ?_ (le_addFunction g name r)
  cases hr' with
  | function other hother =>
    replace hother : (g.functions.set name r).get? other = some r' := hother
    rw [Bindings.get?_set] at hother
    split at hother
    · cases hother
      exact hr
    · exact h r' (.function other hother)
  | method other c methodName hc hmethod => exact h r' (.method other c methodName hc hmethod)

theorem Complete.addClass {g : Gathered} {c : ClassCode} (h : g.Complete)
    (hc : ∀ n r, c.methods.get? n = some r → g.Closed r) (name : String) :
    Complete { g with classes := g.classes.set name c } := by
  intro r' hr'
  refine Closed.mono ?_ (le_addClass g name c)
  cases hr' with
  | function other hother => exact h r' (.function other hother)
  | method other c' methodName hc' hmethod =>
    replace hc' : (g.classes.set name c).get? other = some c' := hc'
    rw [Bindings.get?_set] at hc'
    split at hc'
    · cases hc'
      exact hc methodName r' hmethod
    · exact h r' (.method other c' methodName hc' hmethod)

end Gathered

/-! ### Parts of statements -/

/-- Code at a place and what has been gathered with it, from what had been before. Its jumps land in
it or lead to the exits. -/
structure Emits (start : Nat) (exits : Nat → Prop) (g : Gathered) (code : List Instr)
    (g' : Gathered) : Prop where
  level : Level start exits code
  resolves : ∀ i ∈ code, g'.Resolves i
  le : g.Le g'
  complete : g.Complete → g'.Complete

/-- No place. -/
abbrev NoExit : Nat → Prop :=
  fun _ ↦ False

section

variable {start middle target : Nat} {exits : Nat → Prop} {g g' g'' : Gathered}
  {code xs ys body orelse : List Instr} {condition : Expr}

theorem resolves_of_computes (h : ∀ i ∈ xs, i.computes = true) : ∀ i ∈ xs, g.Resolves i :=
  fun i hi ↦ (g.executable []).resolves_of_computes (h i hi)

theorem resolves_append (hxs : ∀ i ∈ xs, g.Resolves i) (hys : ∀ i ∈ ys, g.Resolves i) :
    ∀ i ∈ xs ++ ys, g.Resolves i :=
  fun i hi ↦ (List.mem_append.mp hi).elim (hxs i) (hys i)

theorem resolves_singleton {i : Instr} (h : g.Resolves i) : ∀ j ∈ [i], g.Resolves j :=
  fun _ hj ↦ List.mem_singleton.mp hj ▸ h

/-- Code that gathers nothing. -/
theorem emits_of_level (hlevel : Level start exits code) (h : ∀ i ∈ code, g.Resolves i) :
    Emits start exits g code g :=
  ⟨hlevel, h, .refl g, id⟩

theorem emits_nil : Emits start exits g [] g :=
  emits_of_level level_nil fun _ hi ↦ absurd hi List.not_mem_nil

theorem emits_of_computes (hclimbs : Climbs 0 code 0) (h : ∀ i ∈ code, i.computes = true) :
    Emits start exits g code g :=
  emits_of_level (level_of_computes hclimbs h) (resolves_of_computes h)

/-- A computation that ends in an instruction which takes all its values and computes, too. -/
theorem emits_taken {i : Instr} (hclimbs : Climbs 0 xs i.pops) (h : ∀ j ∈ xs, j.computes = true)
    (hi : i.computes = true) (hpushes : i.pushes = 0) : Emits start exits g (xs ++ [i]) g := by
  have hleaves : i.leaves = false := by cases i <;> first | rfl | cases hi
  exact emits_of_computes (climbs_append_instr hclimbs hleaves (Nat.le_refl _) (by omega))
    (computes_append h (computes_singleton hi))

/-- A computation that ends in a jump to an exit or in a return. -/
theorem emits_left {i : Instr} (hclimbs : Climbs 0 xs i.pops) (h : ∀ j ∈ xs, j.computes = true)
    (hi : i.leaves = true) (hexit : ∀ t, i.target? = some t → exits t) :
    Emits start exits g (xs ++ [i]) g := by
  have hpushes : i.pushes = 0 := by cases i <;> first | rfl | cases hi
  refine emits_of_level (level_leave hclimbs h hpushes hexit)
    (resolves_append (resolves_of_computes h) (resolves_singleton ?_))
  cases i <;> first | exact trivial | cases hi

/-- A condition with the jump behind it. -/
theorem emits_test (hexit : exits target) :
    Emits start exits g (condition.code ++ [.jumpIfFalse target]) g :=
  emits_left (i := .jumpIfFalse target) (climbs_code condition 0) (computes_code condition) rfl
    fun _ ht ↦ Option.some.inj ht ▸ hexit

theorem emits_jump (hexit : exits target) : Emits start exits g [.jump target] g :=
  emits_of_level (level_jump hexit) (resolves_singleton trivial)

theorem Emits.append (hxs : Emits start exits g xs g') (hys : Emits middle exits g' ys g'')
    (hmiddle : start + xs.length = middle) : Emits start exits g (xs ++ ys) g'' where
  level := hxs.level.append (hmiddle ▸ hys.level)
  resolves := resolves_append (fun i hi ↦ (hxs.resolves i hi).mono hys.le) hys.resolves
  le := hxs.le.trans hys.le
  complete h := hys.complete (hxs.complete h)

theorem Emits.weaken (h : Emits start NoExit g code g') : Emits start exits g code g' :=
  { h with level := h.level.mono fun _ ht ↦ ht.elim }

theorem Emits.close (h : Emits start exits g code g')
    (hexits : ∀ t, exits t → Lands start code t) : Emits start NoExit g code g' :=
  { h with level := h.level.close hexits }

/-- The place behind level code. -/
theorem Emits.lands_end (h : Emits start exits g code g') :
    Lands start code (start + code.length) :=
  ⟨code, [], (List.append_nil code).symm, rfl, h.level.climbs⟩

/-! ### Statements with blocks -/

theorem emits_ifThen (hbody : Emits (start + condition.code.length + 1) NoExit g body g') :
    Emits start NoExit g (condition.code ++
      .jumpIfFalse (start + condition.code.length + 1 + body.length) :: body) g' := by
  rw [List.append_cons]
  generalize hstop : start + condition.code.length + 1 + body.length = stop
  have htest : Emits start (· = stop) g (condition.code ++ [.jumpIfFalse stop]) g := emits_test rfl
  have hlength : (condition.code ++ [Instr.jumpIfFalse stop]).length =
    condition.code.length + 1 := List.length_append
  have hwhole := htest.append hbody.weaken (by rw [hlength, Nat.add_assoc])
  refine hwhole.close ?_
  rintro t rfl
  have hend := hwhole.lands_end
  rwa [List.length_append, hlength, ← Nat.add_assoc, ← Nat.add_assoc, hstop] at hend

theorem emits_ifElse (hbody : Emits (start + condition.code.length + 1) NoExit g body g')
    (horelse : Emits (start + condition.code.length + 1 + body.length + 1) NoExit g' orelse g'') :
    let elseStart := start + condition.code.length + 1 + body.length + 1
    Emits start NoExit g (condition.code ++ .jumpIfFalse elseStart :: body ++
      .jump (elseStart + orelse.length) :: orelse) g'' := by
  intro elseStart
  generalize hstop : elseStart + orelse.length = stop
  rw [List.append_cons condition.code, List.append_cons (condition.code ++ _ ++ body)]
  have htest : Emits start (fun t ↦ t = elseStart ∨ t = stop) g
    (condition.code ++ [.jumpIfFalse elseStart]) g := emits_test (.inl rfl)
  have hlength : (condition.code ++ [Instr.jumpIfFalse elseStart]).length =
    condition.code.length + 1 := List.length_append
  have hfirst := htest.append hbody.weaken (by rw [hlength, Nat.add_assoc])
  have hjump := hfirst.append (emits_jump (.inr rfl)) rfl
  have hbehind : start + (condition.code ++ [Instr.jumpIfFalse elseStart] ++ body ++
      [Instr.jump stop]).length = elseStart := by
    simp only [List.length_append, List.length_singleton, elseStart]
    omega
  have hwhole := hjump.append horelse.weaken hbehind
  refine hwhole.close fun t ht ↦ ?_
  rcases ht with rfl | rfl
  · have hbetween : Lands start _ _ := lands_between hjump.level.climbs orelse
    rwa [hbehind] at hbetween
  · have hend := hwhole.lands_end
    rwa [List.length_append, ← Nat.add_assoc, hbehind, hstop] at hend

theorem emits_whileLoop (hbody : Emits (start + condition.code.length + 1) NoExit g body g') :
    Emits start NoExit g (condition.code ++
      .jumpIfFalse (start + condition.code.length + 1 + body.length + 1) :: body ++
      [.jump start]) g' := by
  rw [List.append_cons condition.code]
  generalize hstop : start + condition.code.length + 1 + body.length + 1 = stop
  have htest : Emits start (fun t ↦ t = stop ∨ t = start) g
    (condition.code ++ [.jumpIfFalse stop]) g := emits_test (.inl rfl)
  have hlength : (condition.code ++ [Instr.jumpIfFalse stop]).length =
    condition.code.length + 1 := List.length_append
  have hfirst := htest.append hbody.weaken (by rw [hlength, Nat.add_assoc])
  have hwhole := hfirst.append (emits_jump (.inr rfl)) rfl
  refine hwhole.close fun t ht ↦ ?_
  rcases ht with rfl | rfl
  · have hend := hwhole.lands_end
    rwa [List.length_append, List.length_append, hlength, List.length_singleton, ← Nat.add_assoc,
      ← Nat.add_assoc, ← Nat.add_assoc, hstop] at hend
  · exact ⟨[], _, rfl, rfl, rfl⟩

theorem emits_forSetup (loop : Nat) (first stop : Expr) :
    Emits start exits g (forSetup loop first stop) g := by
  have hfirst : Emits start exits g (first.code ++ [.storeVariable (loopCounter loop)]) g :=
    emits_taken (i := Instr.storeVariable _) (climbs_code first 0) (computes_code first) rfl rfl
  have hstop : Emits (start + (first.code ++
      [Instr.storeVariable (loopCounter loop)]).length) exits g
      (stop.code ++ [.storeVariable (loopBound loop)]) g :=
    emits_taken (i := Instr.storeVariable _) (climbs_code stop 0) (computes_code stop) rfl rfl
  rw [forSetup, List.append_cons first.code, List.append_assoc _ stop.code]
  exact hfirst.append hstop rfl

theorem emits_forHead (loop : Nat) (name : String) (hexit : exits target) :
    Emits start exits g (forHead loop name target) g := by
  have htest : Emits start exits g
      ((Expr.compare .lt (.variable (loopCounter loop)) (.variable (loopBound loop))).code ++
        [.jumpIfFalse target]) g := emits_test hexit
  have hcount : Emits (start + 4) exits g
      ((Expr.variable (loopCounter loop)).code ++ [.storeVariable name]) g :=
    emits_taken (i := .storeVariable name) (climbs_code _ 0) (computes_code _) rfl rfl
  exact htest.append hcount rfl

theorem emits_forNext (loop : Nat) (hexit : exits target) :
    Emits start exits g (forNext loop target) g := by
  have hstep : Emits start exits g ((Expr.arith .add (.variable (loopCounter loop))
      (.number (.int 1))).code ++ [.storeVariable (loopCounter loop)]) g :=
    emits_taken (i := Instr.storeVariable _) (climbs_code _ 0) (computes_code _) rfl rfl
  exact hstep.append (emits_jump hexit) rfl

theorem emits_forRange (loop : Nat) (name : String) (first stop : Expr)
    (hbody : Emits (start + (forSetup loop first stop).length + 6) NoExit g body g') :
    let top := start + (forSetup loop first stop).length
    Emits start NoExit g (forSetup loop first stop ++
      forHead loop name (top + 6 + body.length + 5) ++ body ++ forNext loop top) g' := by
  intro top
  generalize hbehind : top + 6 + body.length + 5 = behind
  have hsetup : Emits start (fun t ↦ t = behind ∨ t = top) g (forSetup loop first stop) g :=
    emits_forSetup loop first stop
  have hhead := hsetup.append (emits_forHead loop name (.inl rfl)) rfl
  have hlength : (forSetup loop first stop ++ forHead loop name behind).length =
    (forSetup loop first stop).length + 6 := List.length_append
  have hblock := hhead.append hbody.weaken (by rw [hlength, Nat.add_assoc])
  have hwhole := hblock.append (emits_forNext loop (.inr rfl)) rfl
  refine hwhole.close fun t ht ↦ ?_
  rcases ht with rfl | rfl
  · have hend := hwhole.lands_end
    rw [List.length_append, List.length_append, hlength] at hend
    have hplace : start + ((forSetup loop first stop).length + 6 + body.length + 5) = t := by
      rw [← hbehind]
      omega
    exact hplace ▸ hend
  · rw [List.append_assoc, List.append_assoc]
    exact lands_between hsetup.level.climbs _

end

/-! ### The code of programs -/

/-- Level code becomes that of a routine when it returns without a value at its end. -/
theorem Level.balancedRoutine {code : List Instr} (h : Level 0 NoExit code) :
    Code.BalancedRoutine (code ++ returnNone).toArray := by
  have hreturn : Level (0 + code.length) NoExit ([.loadConstant .none] ++ [.returnValue]) :=
    level_leave (climbs_instr rfl (Nat.zero_le 0) rfl) (computes_singleton rfl) rfl nofun
  have hlength : (code ++ returnNone).length = code.length + 2 := List.length_append
  refine ⟨_, (h.append hreturn).heights.1, ?_, fun place i next hi hleads ↦ ?_⟩
  · rw [List.size_toArray, hlength]
    exact Nat.succ_pos _
  · rw [List.getElem?_toArray, List.getElem?_append] at hi
    rw [List.size_toArray, hlength]
    split at hi
    · next hlt =>
      rcases hleads with ⟨-, rfl⟩ | htarget
      · omega
      · have hlands := (h.lands i (List.mem_of_getElem? hi) next htarget).resolve_left id
        exact Nat.lt_of_le_of_lt hlands.take.1 (by omega)
    · next hle =>
      -- Behind the level code, only the load goes on, and it goes on at the return.
      obtain hplace | hplace | hplace : place - code.length = 0 ∨ place - code.length = 1 ∨
        2 ≤ place - code.length := by omega
      · rw [hplace] at hi
        cases hi
        rcases hleads with ⟨-, rfl⟩ | htarget
        · omega
        · cases htarget
      · rw [hplace] at hi
        cases hi
        rcases hleads with ⟨hfalls, -⟩ | htarget
        · cases hfalls
        · cases htarget
      · rw [List.getElem?_eq_none hplace] at hi
        cases hi

/-- A routine with the code of a body. -/
theorem Emits.closed {g g' : Gathered} {code : List Instr} (h : Emits 0 NoExit g code g')
    (name : String) (params : List String) :
    g'.Closed ⟨name, params, (code ++ returnNone).toArray⟩ := by
  refine ⟨h.level.balancedRoutine, fun i hi ↦ ?_⟩
  have hreturn : ∀ i ∈ returnNone, g'.Resolves i :=
    resolves_append (resolves_singleton (i := .loadConstant .none) trivial)
      (resolves_singleton (i := .returnValue) trivial)
  exact resolves_append h.resolves hreturn i (List.mem_toArray.mp hi)

mutual

/-- The code of a statement is level, and all definitions in it have been gathered. -/
theorem emits_code : ∀ (st : Stmt) (start : Nat) (g : Gathered),
    Emits start NoExit g (st.code start g).1 (st.code start g).2
  | .assign name value, _, _ =>
    emits_taken (i := .storeVariable name) (climbs_code value 0) (computes_code value) rfl rfl
  | .assignIndex name position value, _, _ =>
    emits_taken (i := .storeIndex)
      ((climbs_cons_load name (climbs_code position 1)).append (climbs_code value 2))
      (computes_append (computes_append (computes_singleton (i := .loadVariable name) rfl)
        (computes_code position)) (computes_code value)) rfl rfl
  | .assignAttribute object name value, _, _ =>
    emits_taken (i := .storeAttribute name) (climbs_cons_load object (climbs_code value 1))
      (computes_append (computes_singleton (i := .loadVariable object) rfl) (computes_code value))
      rfl rfl
  | .print value, _, _ =>
    emits_taken (i := .print) (climbs_code value 0) (computes_code value) rfl rfl
  | .expr value, _, _ =>
    emits_taken (i := .pop) (climbs_code value 0) (computes_code value) rfl rfl
  | .ifElse condition body [], start, g => by
    rw [code_ifThen]
    exact emits_ifThen (emits_codeOfBlock body _ g)
  | .ifElse condition body (s :: orelse), start, g => by
    rw [code_ifElse]
    exact emits_ifElse (emits_codeOfBlock body _ g) (emits_codeOfBlock (s :: orelse) _ _)
  | .whileLoop condition body, start, g => by
    rw [code_whileLoop]
    exact emits_whileLoop (emits_codeOfBlock body _ g)
  | .forRange name first stop body, start, g => by
    rw [code_forRange]
    have hbody := emits_codeOfBlock body (start + (forSetup (g.loops + 1) first stop).length + 6)
      { g with loops := g.loops + 1 }
    have hloop := emits_forRange (g.loops + 1) name first stop hbody
    exact ⟨hloop.level, hloop.resolves, ⟨hloop.le.functions, hloop.le.classes⟩, fun h ↦
      hloop.complete fun r hr ↦ (h r hr).mono ⟨fun _ hn ↦ hn, fun _ hn ↦ hn⟩⟩
  | .define routine, start, g => by
    have hlevel : Level start NoExit [Instr.defineFunction routine.name] :=
      ⟨climbs_instr rfl (Nat.le_refl 0) rfl, fun i hi t ht ↦ by
        cases List.mem_singleton.mp hi
        cases ht⟩
    rw [Stmt.code]
    split
    · next hhas => exact emits_of_level hlevel (resolves_singleton hhas)
    · obtain ⟨hle, hclosed, hcomplete⟩ := closed_codeOfRoutine routine g
      refine ⟨hlevel, resolves_singleton ?_, hle.trans (Gathered.le_addFunction _ _ _), fun h ↦
        (hcomplete h).addFunction hclosed routine.name⟩
      exact Bindings.has_set.mpr (.inl rfl)
  | .defineClass definition, start, g => by
    have hlevel : Level start NoExit [Instr.defineClass definition.name] :=
      ⟨climbs_instr rfl (Nat.le_refl 0) rfl, fun i hi t ht ↦ by
        cases List.mem_singleton.mp hi
        cases ht⟩
    rw [Stmt.code]
    split
    · next hhas => exact emits_of_level hlevel (resolves_singleton hhas)
    · obtain ⟨hle, hclosed, hcomplete⟩ := closed_codeOfClass definition g
      refine ⟨hlevel, resolves_singleton ?_, hle.trans (Gathered.le_addClass _ _ _), fun h ↦
        (hcomplete h).addClass hclosed definition.name⟩
      exact Bindings.has_set.mpr (.inl rfl)
  | .return none, start, g => by
    have hreturn : Emits start NoExit g ([.loadConstant .none] ++ [.returnValue]) g :=
      emits_left (climbs_instr rfl (Nat.zero_le 0) rfl) (computes_singleton rfl) rfl nofun
    exact hreturn
  | .return (some value), _, _ =>
    emits_left (i := .returnValue) (climbs_code value 0) (computes_code value) rfl
      fun _ ht ↦ by cases ht
  | .pass, _, _ => emits_nil

theorem emits_codeOfBlock : ∀ (block : List Stmt) (start : Nat) (g : Gathered),
    Emits start NoExit g (codeOfBlock start g block).1 (codeOfBlock start g block).2
  | [], _, _ => emits_nil
  | s :: ss, start, g => by
    rw [codeOfBlock_cons]
    exact (emits_code s start g).append (emits_codeOfBlock ss _ _) rfl

theorem closed_codeOfRoutine : ∀ (r : Routine (List Stmt)) (g : Gathered),
    g.Le (codeOfRoutine g r).2 ∧ (codeOfRoutine g r).2.Closed (codeOfRoutine g r).1 ∧
      (g.Complete → (codeOfRoutine g r).2.Complete)
  | ⟨name, params, body⟩, g => by
    have hbody := emits_codeOfBlock body 0 g
    exact ⟨hbody.le, hbody.closed name params, hbody.complete⟩

theorem closed_codeOfMethods : ∀ (ms : List (Routine (List Stmt))) (g : Gathered)
    (done : Bindings (Routine Code)), (∀ n r, done.get? n = some r → g.Closed r) →
    g.Le (codeOfMethods g done ms).2 ∧
      (∀ n r, (codeOfMethods g done ms).1.get? n = some r → (codeOfMethods g done ms).2.Closed r) ∧
      (g.Complete → (codeOfMethods g done ms).2.Complete)
  | [], g, _, hdone => ⟨.refl g, hdone, id⟩
  | m :: ms, g, done, hdone => by
    obtain ⟨hle, hclosed, hcomplete⟩ := closed_codeOfRoutine m g
    rw [codeOfMethods]
    obtain ⟨hle', hclosed', hcomplete'⟩ := closed_codeOfMethods ms (codeOfRoutine g m).2
      (done.set m.name (codeOfRoutine g m).1) fun n r hr ↦ by
        rw [Bindings.get?_set] at hr
        split at hr
        · cases hr
          exact hclosed
        · exact (hdone n r hr).mono hle
    exact ⟨hle.trans hle', hclosed', fun h ↦ hcomplete' (hcomplete h)⟩

theorem closed_codeOfClass : ∀ (c : Class (List Stmt)) (g : Gathered),
    g.Le (codeOfClass g c).2 ∧
      (∀ n r, (codeOfClass g c).1.methods.get? n = some r → (codeOfClass g c).2.Closed r) ∧
      (g.Complete → (codeOfClass g c).2.Complete)
  | ⟨_, methods⟩, g => closed_codeOfMethods methods g .empty fun _ _ hr ↦ by cases hr

end

/-- Where all routines that have been gathered are complete, an executable is balanced if its main
block is. -/
theorem Gathered.Complete.balanced {g : Gathered} (h : g.Complete) {main : List Instr}
    (hlevel : Level 0 NoExit main) (hmain : ∀ i ∈ main, g.Resolves i) :
    (g.executable main).Balanced where
  main := hlevel.balancedMain
  routines r hr := (h r (by cases hr with
    | function name hname => exact .function name hname
    | method name c methodName hc hmethod => exact .method name c methodName hc hmethod)).balanced
  resolvesMain i hi := by
    have hresolves := hmain i (List.mem_toArray.mp hi)
    cases i <;> exact hresolves
  resolves r hr i hi := by
    have hresolves := (h r (by cases hr with
      | function name hname => exact .function name hname
      | method name c methodName hc hmethod =>
        exact .method name c methodName hc hmethod)).resolves i hi
    cases i <;> exact hresolves

/-- Direct lowering gives balanced executables. -/
theorem balanced_lowerDirect (program : Block) : (lowerDirect program).Balanced := by
  have hmain := emits_codeOfBlock program 0 .initial
  exact (hmain.complete Gathered.complete_initial).balanced hmain.level hmain.resolves

end Offside
