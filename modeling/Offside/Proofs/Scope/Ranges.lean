import Offside.Compile
import Offside.Proofs.Except
import Offside.Proofs.Reading.Finds
import Offside.Proofs.Scope.Occurrences
import Offside.Proofs.Scope.Simplify

/-!
Where counting loops start. The grammar has loops over a range only, so all loops of a program that
has been read start at zero, and those of its routines as well (`loopsFromZero_of_parse`). A loop
that is left behind simplifying was a loop before it (`Occurs.loop_of_simplify`), so this holds of
a program that has been simplified, too.
-/

set_option autoImplicit false
set_option relaxedAutoImplicit false

namespace Offside

open Grammar ThreeAddress

/-- All counting loops that occur in the block start at zero. -/
def FromZero (block : Block) : Prop :=
  ∀ name start stop body, Occurs (.forRange name start stop body) block →
    start = .number (.int 0)

/-- All counting loops in the blocks of the program start at zero. -/
structure LoopsFromZero (program : Block) : Prop where
  main : FromZero program
  functions : ∀ r ∈ (definitions program).1, FromZero r.body
  methods : ∀ c ∈ (definitions program).2, ∀ r ∈ c.methods, FromZero r.body

/-! ### What is derived -/

namespace Grammar

variable {text : List Token}

/-- Lines derive their first and the lines behind it. -/
theorem Lines.of_cons {α : Type} {line : List Token → α → Prop} {a : α} {as : List α}
    (h : Lines line text (a :: as)) : (∃ text, line text a) ∧ ∃ text, Lines line text as := by
  generalize hall : a :: as = all at h
  induction h with
  | nil => cases hall
  | blank h ih => exact ih hall
  | line hfirst hrest =>
    cases hall
    exact ⟨⟨_, hfirst⟩, _, hrest⟩

theorem Lines.of_mem {α : Type} {line : List Token → α → Prop} {a : α} {as : List α}
    (h : Lines line text as) (ha : a ∈ as) : ∃ text, line text a := by
  induction h with
  | nil => cases ha
  | blank h ih => exact ih ha
  | line hfirst hrest ih =>
    rcases List.mem_cons.mp ha with rfl | ha
    · exact ⟨_, hfirst⟩
    · exact ih ha

theorem Indented.lines {α : Type} {line : List Token → α → Prop} {as : List α}
    (h : Indented line text as) : ∃ text, Lines line text as := by
  cases h with
  | mk h => exact ⟨_, h⟩

/-- What occurs in a block that is derived is derived itself. -/
theorem Program.of_occurs {block : Block} {s : Stmt} (h : Program text block)
    (hoccurs : Occurs s block) : ∃ text, Statement text s := by
  induction hoccurs generalizing text with
  | here ss => exact h.of_cons.1
  | later t ss hoccurs ih =>
    obtain ⟨-, _, h⟩ := h.of_cons
    exact ih h
  | ifBody condition body orelse ss hoccurs ih =>
    obtain ⟨⟨_, h⟩, -⟩ := h.of_cons
    cases h with
    | ifThen hcondition hbody => exact ih hbody.lines.choose_spec
    | ifElse hcondition hbody horelse => exact ih hbody.lines.choose_spec
  | orelse condition body orelse ss hoccurs ih =>
    obtain ⟨⟨_, h⟩, -⟩ := h.of_cons
    cases h with
    | ifThen hcondition hbody => cases hoccurs
    | ifElse hcondition hbody horelse => exact ih horelse.lines.choose_spec
  | whileBody condition body ss hoccurs ih =>
    obtain ⟨⟨_, h⟩, -⟩ := h.of_cons
    cases h with
    | whileLoop hcondition hbody => exact ih hbody.lines.choose_spec
  | forBody name start stop body ss hoccurs ih =>
    obtain ⟨⟨_, h⟩, -⟩ := h.of_cons
    cases h with
    | forRange name hstop hbody => exact ih hbody.lines.choose_spec

theorem Program.fromZero {block : Block} (h : Program text block) : FromZero block := by
  intro name start stop body hoccurs
  obtain ⟨_, hloop⟩ := h.of_occurs hoccurs
  cases hloop
  rfl

theorem RoutineOver.fromZero {r : Routine Block} (h : RoutineOver Statement text r) :
    FromZero r.body := by
  cases h with
  | mk name hparams hbody => exact Program.fromZero hbody.lines.choose_spec

theorem Program.loopsFromZero {program : Block} (h : Program text program) :
    LoopsFromZero program where
  main := h.fromZero
  functions r hr := by
    obtain ⟨_, hdefine⟩ := h.of_occurs ((occurs_of_mem_definitions program).1 r hr)
    cases hdefine with
    | define hr => exact hr.fromZero
  methods c hc r hr := by
    obtain ⟨_, hdefine⟩ := h.of_occurs ((occurs_of_mem_definitions program).2 c hc)
    cases hdefine with
    | defineClass name hmembers =>
      obtain ⟨rs, hrs, hr⟩ := List.mem_flatten.mp hr
      obtain ⟨_, hmember⟩ := hmembers.lines.choose_spec.of_mem hrs
      cases hmember with
      | method h => exact List.mem_singleton.mp hr ▸ h.fromZero
      | pass => cases hr

end Grammar

/-- Every loop of a program that has been read is over a range. -/
theorem loopsFromZero_of_parse {source : String} {program : Block}
    (h : parse source = .ok program) : LoopsFromZero program := by
  obtain ⟨tokens, -, h⟩ := bind_eq_ok.mp h
  obtain ⟨⟨read, rest⟩, hrun, hread⟩ := map_eq_ok.mp (mapError_eq_ok.mp h)
  obtain ⟨taken, -, -, hderived⟩ := Reading.finds_program tokens.length _ _ _ trivial hrun
  cases hread
  exact hderived.loopsFromZero

theorem loopsFromZero_of_analyze {source : String} {program : Block}
    (h : analyze source = .ok program) : LoopsFromZero program := by
  obtain ⟨read, hread, h⟩ := bind_eq_ok.mp h
  obtain ⟨_, -, h⟩ := bind_eq_ok.mp h
  cases h
  exact loopsFromZero_of_parse hread

/-! ### Simplifying -/

/-- The loop is what simplifying a loop of the block gives. -/
def SimplifiedLoop (i : Bool) (name : String) (start stop : Expr) (body block : Block) : Prop :=
  ∃ start' stop' body', Occurs (.forRange name start' stop' body') block ∧
    start = start'.simplify ∧ stop = stop'.simplify ∧ body = simplifyBlock i body'

section

variable {i : Bool} {name : String} {start stop : Expr} {body first rest block : Block}

theorem SimplifiedLoop.mono (h : SimplifiedLoop i name start stop body first)
    (hoccurs : ∀ s, Occurs s first → Occurs s rest) :
    SimplifiedLoop i name start stop body rest := by
  obtain ⟨start', stop', body', h, heqs⟩ := h
  exact ⟨start', stop', body', hoccurs _ h, heqs⟩

mutual

theorem Occurs.loop_of_simplifyStmt : ∀ {s : Stmt},
    Occurs (.forRange name start stop body) (s.simplify i) →
      SimplifiedLoop i name start stop body [s]
  | .ifElse condition first rest, h => by
    have hfirst (h : Occurs (.forRange name start stop body) (simplifyBlock i first)) :=
      (Occurs.loop_of_simplify h).mono fun _ ↦ Occurs.ifBody condition first rest []
    have hrest (h : Occurs (.forRange name start stop body) (simplifyBlock i rest)) :=
      (Occurs.loop_of_simplify h).mono fun _ ↦ Occurs.orelse condition first rest []
    rw [Stmt.simplify] at h
    split at h
    · exact hfirst h
    · exact hrest h
    · cases h with
      | later _ _ h => cases h
      | ifBody _ _ _ _ h => exact hfirst h
      | orelse _ _ _ _ h => exact hrest h
  | .whileLoop condition inner, h => by
    cases h with
    | later _ _ h => cases h
    | whileBody _ _ _ h =>
      exact (Occurs.loop_of_simplify h).mono fun _ ↦ Occurs.whileBody condition inner []
  | .forRange name' start' stop' inner, h => by
    cases h with
    | here => exact ⟨start', stop', inner, .here [], rfl, rfl, rfl⟩
    | later _ _ h => cases h
    | forBody _ _ _ _ _ h =>
      exact (Occurs.loop_of_simplify h).mono fun _ ↦ Occurs.forBody name' start' stop' inner []
  | .assign _ _, .later _ _ h => by cases h
  | .assignIndex _ _ _, .later _ _ h => by cases h
  | .assignAttribute _ _ _, .later _ _ h => by cases h
  | .print _, .later _ _ h => by cases h
  | .define _, .later _ _ h => by cases h
  | .defineClass _, .later _ _ h => by cases h
  | .return none, .later _ _ h => by cases h
  | .return (some _), .later _ _ h => by cases h
  | .expr _, .later _ _ h => by cases h
  | .pass, .later _ _ h => by cases h

theorem Occurs.loop_of_simplify : ∀ {block : List Stmt},
    Occurs (.forRange name start stop body) (simplifyBlock i block) →
      SimplifiedLoop i name start stop body block
  | s :: ss, h => by
    have hfirst (h : Occurs (.forRange name start stop body) (s.simplify i)) :=
      (Occurs.loop_of_simplifyStmt h).mono fun _ hs ↦ hs.append_right ss
    rw [simplifyBlock] at h
    split at h
    · exact hfirst h
    · rcases occurs_append.mp h with h | h
      · exact hfirst h
      · exact (Occurs.loop_of_simplify h).mono fun _ ↦ .later s ss

end

theorem FromZero.simplify (h : FromZero block) (i : Bool) : FromZero (simplifyBlock i block) := by
  intro name start stop body hoccurs
  obtain ⟨start', stop', body', hloop, rfl, -⟩ := hoccurs.loop_of_simplify
  rw [h name start' stop' body' hloop]
  rfl

theorem LoopsFromZero.simplify {program : Block} (h : LoopsFromZero program) :
    LoopsFromZero (Offside.simplify program) where
  main := h.main.simplify false
  functions r hr := by
    obtain ⟨r', hr', rfl⟩ := List.mem_map.mp ((definitions_simplify false program).1 hr)
    rw [simplifyRoutine_body]
    exact (h.functions r' hr').simplify true
  methods c hc r hr := by
    obtain ⟨c', hc', rfl⟩ := List.mem_map.mp ((definitions_simplify false program).2 hc)
    rw [simplifyClass_methods] at hr
    obtain ⟨r', hr', rfl⟩ := List.mem_map.mp hr
    rw [simplifyRoutine_body]
    exact (h.methods c' hc' r' hr').simplify true

theorem LoopsFromZero.prepare {program : Block} (h : LoopsFromZero program) (o : CompileOptions) :
    LoopsFromZero (o.prepare program) := by
  unfold CompileOptions.prepare
  split
  · exact h.simplify
  · exact h

end

end Offside
