import Offside.Proofs.Realization.Matches
import Offside.Proofs.Scope.Occurrences

/-!
What lowering gathers. The first definition of a name is kept, and the names of definitions are told
apart by the scope check; so an executable holds the code of every definition of its program. This
is shown for the code of a statement (`gathers_code`), from which it follows for both ways of
lowering a program: one meets the definitions on its way through the tree, and the other goes
through a list of them.
-/

set_option autoImplicit false
set_option relaxedAutoImplicit false

namespace Offside

open ThreeAddress (definitions definitionsOfStmt)

/-! ### Collected bindings -/

section

variable {α β : Type} {name : α → String} {R : α → β → Prop} {D d d' : List α}
  {b b₁ b₂ : Bindings β}

/-- Each value is that of an element of `D` with its name. -/
def BoundFrom (name : α → String) (R : α → β → Prop) (D : List α) (b : Bindings β) : Prop :=
  ∀ n y, b.get? n = some y → ∃ x ∈ D, name x = n ∧ R x y

/-- Values for the elements `d` of `D` are bound besides those that were bound before. -/
structure Collects (name : α → String) (R : α → β → Prop) (D d : List α) (b b' : Bindings β) :
    Prop where
  sound : BoundFrom name R D b → BoundFrom name R D b'
  adds : ∀ n, b.has n = true ∨ (∃ x ∈ d, name x = n) → b'.has n = true

theorem collects_refl : Collects name R D [] b b :=
  ⟨id, fun n h ↦ by simpa using h⟩

theorem Collects.trans (h : Collects name R D d b b₁) (h' : Collects name R D d' b₁ b₂) :
    Collects name R D (d ++ d') b b₂ := by
  refine ⟨fun hb ↦ h'.sound (h.sound hb), fun n hn ↦ h'.adds n ?_⟩
  rcases hn with hn | ⟨x, hx, hname⟩
  · exact .inl (h.adds n (.inl hn))
  · rcases List.mem_append.mp hx with hx | hx
    · exact .inl (h.adds n (.inr ⟨x, hx, hname⟩))
    · exact .inr ⟨x, hx, hname⟩

theorem collects_set (name : α → String) {x : α} {y : β} (hx : x ∈ D) (hR : R x y) :
    Collects name R D [x] b (b.set (name x) y) := by
  refine ⟨fun hb n y' hn ↦ ?_, fun n hn ↦ Bindings.has_set.mpr ?_⟩
  · rw [Bindings.get?_set] at hn
    split at hn
    · next hname =>
      cases hn
      exact ⟨x, hx, hname, hR⟩
    · exact hb n y' hn
  · rcases hn with hn | ⟨x', hx', hname⟩
    · exact .inr hn
    · rw [List.mem_singleton.mp hx'] at hname
      exact .inl hname

/-- A name that is bound is passed over. -/
theorem collects_of_has {x : α} (h : b.has (name x) = true) : Collects name R D [x] b b := by
  refine ⟨id, fun n hn ↦ ?_⟩
  rcases hn with hn | ⟨x', hx', hname⟩
  · exact hn
  · rwa [← hname, List.mem_singleton.mp hx']

/-- All elements have been collected, and those of one name are one. -/
theorem BoundFrom.get? (h : BoundFrom name R D b) (hapart : Apart name D) {x : α} (hx : x ∈ D)
    (hhas : b.has (name x) = true) : ∃ y, b.get? (name x) = some y ∧ R x y := by
  obtain ⟨y, hy⟩ := Option.isSome_iff_exists.mp hhas
  obtain ⟨x', hx', hname, hR⟩ := h _ y hy
  rw [hapart x' hx' x hx hname] at hR
  exact ⟨y, hy, hR⟩

end

/-! ### Parts of a program -/

/-- A part of the definitions `D` of a program, with the functions and classes in `d`, is
lowered. -/
structure Gathers (D d : List (Routine Block) × List (Class Block)) (g g' : Gathered) : Prop where
  functions : Collects Routine.name CompiledFrom D.1 d.1 g.functions g'.functions
  classes : Collects Class.name ClassCompiledFrom D.2 d.2 g.classes g'.classes

section

variable {D d d' : List (Routine Block) × List (Class Block)} {g g₁ g₂ : Gathered}

theorem gathers_refl : Gathers D ([], []) g g :=
  ⟨collects_refl, collects_refl⟩

theorem Gathers.trans (h : Gathers D d g g₁) (h' : Gathers D d' g₁ g₂) :
    Gathers D (d.1 ++ d'.1, d.2 ++ d'.2) g g₂ :=
  ⟨h.functions.trans h'.functions, h.classes.trans h'.classes⟩

/-! ### Methods -/

/-- Where names are told apart, the last method of a name is the first. -/
theorem methods_of_codeOfMethods {ms : List (Routine Block)} :
    ∀ (before : List (Routine Block)) {done : Bindings (Routine Code)} {g : Gathered},
      Apart Routine.name (before ++ ms) → (∀ r ∈ ms, RoutineScoped Plain r) →
      (∀ n, Option.Rel CompiledFrom (before.find? fun r ↦ r.name = n) (done.get? n)) →
      ∀ n, Option.Rel CompiledFrom ((before ++ ms).find? fun r ↦ r.name = n)
        ((codeOfMethods g done ms).1.get? n) := by
  induction ms with
  | nil =>
    intro before done g _ _ hdone
    rw [List.append_nil]
    exact hdone
  | cons r ms ih =>
    intro before done g hapart hscoped hdone
    have hcompiled : CompiledFrom r (codeOfRoutine g r).1 :=
      ⟨hscoped r List.mem_cons_self, g, rfl⟩
    rw [codeOfMethods, List.append_cons]
    rw [List.append_cons] at hapart
    refine ih _ hapart (fun r' hr' ↦ hscoped r' (List.mem_cons_of_mem r hr')) fun n ↦ ?_
    rw [List.find?_append, Bindings.get?_set]
    by_cases hn : r.name = n
    · rw [if_pos hn]
      cases hfound : before.find? fun r ↦ r.name = n with
      | none => simpa [hn] using hcompiled
      | some r' =>
        have hmem := List.mem_of_find?_eq_some hfound
        have hname : r'.name = n := by simpa using List.find?_some hfound
        have heq : r' = r := hapart r' (by simp [hmem]) r (by simp) (hname.trans hn.symm)
        rw [heq]
        exact .some hcompiled
    · rw [if_neg hn]
      simpa [hn] using hdone n

theorem classCompiledFrom {c : Class Block} (hc : ClassScoped Plain c) :
    ClassCompiledFrom c (codeOfClass g c).1 := by
  obtain ⟨name, methods⟩ := c
  refine ⟨hc.1, rfl, ?_⟩
  exact methods_of_codeOfMethods [] hc.2.1 (methodsScoped_iff.mp hc.2.2)
    fun n ↦ .none

/-! ### The definitions of a program -/

mutual

/-- Lowering a statement gathers its definitions. -/
theorem gathers_code {i : Bool} : ∀ (st : Stmt) {start : Nat} {g : Gathered}, st.Scoped i Plain →
    (∀ r ∈ (definitionsOfStmt st).1, r ∈ D.1) → (∀ c ∈ (definitionsOfStmt st).2, c ∈ D.2) →
    Gathers D (definitionsOfStmt st) g (st.code start g).2
  | .assign _ _, _, _, _, _, _ => gathers_refl
  | .assignIndex _ _ _, _, _, _, _, _ => gathers_refl
  | .assignAttribute _ _ _, _, _, _, _, _ => gathers_refl
  | .print _, _, _, _, _, _ => gathers_refl
  | .ifElse condition body [], start, g, hs, hfunctions, hclasses => by
    rw [code_ifThen]
    have hbody : Gathers D (definitions body) g
        (codeOfBlock (start + condition.code.length + 1) g body).2 :=
      gathers_codeOfBlock body hs.2.1 (fun r hr ↦ hfunctions r (List.mem_append_left _ hr))
        fun c hc ↦ hclasses c (List.mem_append_left _ hc)
    exact hbody.trans gathers_refl
  | .ifElse condition body (st :: orelse), start, g, hs, hfunctions, hclasses => by
    rw [code_ifElse]
    have hbody : Gathers D (definitions body) g
        (codeOfBlock (start + condition.code.length + 1) g body).2 :=
      gathers_codeOfBlock body hs.2.1 (fun r hr ↦ hfunctions r (List.mem_append_left _ hr))
        fun c hc ↦ hclasses c (List.mem_append_left _ hc)
    exact hbody.trans (gathers_codeOfBlock (st :: orelse) hs.2.2
      (fun r hr ↦ hfunctions r (List.mem_append_right _ hr))
      fun c hc ↦ hclasses c (List.mem_append_right _ hc))
  | .whileLoop condition body, start, g, hs, hfunctions, hclasses => by
    rw [code_whileLoop]
    exact gathers_codeOfBlock body hs.2 hfunctions hclasses
  | .forRange name first stop body, start, g, hs, hfunctions, hclasses => by
    rw [code_forRange]
    have hbody : Gathers D (definitions body) { g with loops := g.loops + 1 }
        (codeOfBlock (start + (forSetup (g.loops + 1) first stop).length + 6)
          { g with loops := g.loops + 1 } body).2 :=
      gathers_codeOfBlock body (blockScoped_mono (Declaring.plain hs.1) hs.2.2.2) hfunctions
        hclasses
    exact ⟨hbody.functions, hbody.classes⟩
  | .define routine, start, g, hs, hfunctions, hclasses => by
    rw [Stmt.code]
    split
    · next hhas => exact ⟨collects_of_has hhas, collects_refl⟩
    · have hbody : Gathers D ([], []) g (codeOfRoutine g routine).2 :=
        gathers_codeOfRoutine routine hs.2
      have hset := collects_set Routine.name (b := (codeOfRoutine g routine).2.functions)
        (hfunctions routine (List.mem_singleton.mpr rfl))
        (show CompiledFrom routine (codeOfRoutine g routine).1 from ⟨hs.2, g, rfl⟩)
      exact ⟨hbody.functions.trans hset, hbody.classes⟩
  | .defineClass definition, start, g, hs, hfunctions, hclasses => by
    rw [Stmt.code]
    split
    · next hhas => exact ⟨collects_refl, collects_of_has hhas⟩
    · have hbody : Gathers D ([], []) g (codeOfClass g definition).2 :=
        gathers_codeOfClass definition hs.2
      have hset := collects_set Class.name (b := (codeOfClass g definition).2.classes)
        (hclasses definition (List.mem_singleton.mpr rfl)) (classCompiledFrom (g := g) hs.2)
      exact ⟨hbody.functions, hbody.classes.trans hset⟩
  | .return none, _, _, _, _, _ => gathers_refl
  | .return (some _), _, _, _, _, _ => gathers_refl
  | .expr _, _, _, _, _, _ => gathers_refl
  | .pass, _, _, _, _, _ => gathers_refl

theorem gathers_codeOfBlock {i : Bool} : ∀ (block : List Stmt) {start : Nat} {g : Gathered},
    BlockScoped i Plain block → (∀ r ∈ (definitions block).1, r ∈ D.1) →
    (∀ c ∈ (definitions block).2, c ∈ D.2) →
    Gathers D (definitions block) g (codeOfBlock start g block).2
  | [], _, _, _, _, _ => gathers_refl
  | st :: ss, start, g, hs, hfunctions, hclasses => by
    rw [codeOfBlock_cons]
    have hfirst : Gathers D (definitionsOfStmt st) g (st.code start g).2 :=
      gathers_code st hs.1 (fun r hr ↦ hfunctions r (List.mem_append_left _ hr))
        fun c hc ↦ hclasses c (List.mem_append_left _ hc)
    exact hfirst.trans (gathers_codeOfBlock ss (blockScoped_mono (Stmt.declared_plain hs.1) hs.2)
      (fun r hr ↦ hfunctions r (List.mem_append_right _ hr))
      fun c hc ↦ hclasses c (List.mem_append_right _ hc))

theorem gathers_codeOfRoutine : ∀ (r : Routine (List Stmt)) {g : Gathered},
    RoutineScoped Plain r → Gathers D ([], []) g (codeOfRoutine g r).2
  | ⟨name, params, body⟩, g, hr => by
    have hbody := blockScoped_mono (WithParams.plain hr.1) hr.2
    have hnone := definitions_of_scoped hbody
    have hgathers : Gathers D (definitions body) g (codeOfBlock 0 g body).2 := by
      refine gathers_codeOfBlock body hbody (fun r hr ↦ ?_) fun c hc ↦ ?_
      · rw [hnone] at hr
        exact absurd hr List.not_mem_nil
      · rw [hnone] at hc
        exact absurd hc List.not_mem_nil
    rwa [hnone] at hgathers

theorem gathers_codeOfMethods : ∀ (ms : List (Routine (List Stmt))) {g : Gathered}
    {done : Bindings (Routine Code)}, MethodsScoped Plain ms →
    Gathers D ([], []) g (codeOfMethods g done ms).2
  | [], _, _, _ => gathers_refl
  | m :: ms, g, done, hms => by
    rw [codeOfMethods]
    exact (gathers_codeOfRoutine m hms.1).trans (gathers_codeOfMethods ms hms.2)

theorem gathers_codeOfClass : ∀ (c : Class (List Stmt)) {g : Gathered},
    ClassScoped Plain c → Gathers D ([], []) g (codeOfClass g c).2
  | ⟨_, methods⟩, _, hc => gathers_codeOfMethods methods hc.2.2

end

/-- Where every definition has been gathered, the executable provides it. -/
theorem provides_of_gathers {D : List (Routine Block) × List (Class Block)} {g : Gathered}
    (hfunctions : Apart Routine.name D.1) (hclasses : Apart Class.name D.2)
    (h : Gathers D D .initial g) (main : List Instr) : Provides (g.executable main) D where
  functions r hr := (h.functions.sound fun _ _ hn ↦ by cases hn).get? hfunctions hr
    (h.functions.adds r.name (.inr ⟨r, hr, rfl⟩))
  classes c hc := (h.classes.sound fun _ _ hn ↦ by cases hn).get? hclasses hc
    (h.classes.adds c.name (.inr ⟨c, hc, rfl⟩))

/-- Direct lowering gathers the definitions of its program. -/
theorem gathers_lowerDirect {program : Block} (h : WellFormed program) :
    Gathers (definitions program) (definitions program) .initial
      (codeOfBlock 0 .initial program).2 := by
  have hscoped : BlockScoped false Plain program := blockScoped_mono (fun _ hx ↦ hx.elim) h.inScope
  exact gathers_codeOfBlock program hscoped (fun _ hr ↦ hr) fun _ hc ↦ hc

theorem provides_lowerDirect {program : Block} (h : WellFormed program) :
    Provides (lowerDirect program) (definitions program) :=
  provides_of_gathers h.functions h.classes (gathers_lowerDirect h) _

theorem gathers_addFunctions (rs : List (Routine Block)) :
    ∀ {g : Gathered}, (∀ r ∈ rs, RoutineScoped Plain r) → (∀ r ∈ rs, r ∈ D.1) →
      Gathers D (rs, []) g (rs.foldl Gathered.addFunction g) := by
  induction rs with
  | nil => exact fun _ _ ↦ gathers_refl
  | cons r rs ih =>
    intro g hscoped hmem
    have hfirst : Gathers D ([r], []) g (g.addFunction r) :=
      gathers_code (i := false) (.define r) ⟨rfl, hscoped r List.mem_cons_self⟩
        (fun r' hr' ↦ by
          rw [List.mem_singleton.mp hr']
          exact hmem r List.mem_cons_self)
        fun _ hc ↦ absurd hc List.not_mem_nil
    exact hfirst.trans (ih (fun r' hr' ↦ hscoped r' (List.mem_cons_of_mem r hr'))
      fun r' hr' ↦ hmem r' (List.mem_cons_of_mem r hr'))

theorem gathers_addClasses (cs : List (Class Block)) :
    ∀ {g : Gathered}, (∀ c ∈ cs, ClassScoped Plain c) → (∀ c ∈ cs, c ∈ D.2) →
      Gathers D ([], cs) g (cs.foldl Gathered.addClass g) := by
  induction cs with
  | nil => exact fun _ _ ↦ gathers_refl
  | cons c cs ih =>
    intro g hscoped hmem
    have hfirst : Gathers D ([], [c]) g (g.addClass c) :=
      gathers_code (i := false) (.defineClass c) ⟨rfl, hscoped c List.mem_cons_self⟩
        (fun _ hr ↦ absurd hr List.not_mem_nil)
        fun c' hc' ↦ by
          rw [List.mem_singleton.mp hc']
          exact hmem c List.mem_cons_self
    exact hfirst.trans (ih (fun c' hc' ↦ hscoped c' (List.mem_cons_of_mem c hc'))
      fun c' hc' ↦ hmem c' (List.mem_cons_of_mem c hc'))

/-- A three-address form gathers the definitions of its program. -/
theorem gathers_ofProgram {program : Block} (h : WellFormed program) :
    Gathers (definitions program) (definitions program) .initial
      ((definitions program).2.foldl Gathered.addClass
        ((definitions program).1.foldl Gathered.addFunction .initial)) := by
  have hscoped : BlockScoped false Plain program := blockScoped_mono (fun _ hx ↦ hx.elim) h.inScope
  obtain ⟨hfunctions, hclasses⟩ := scoped_of_mem_definitions hscoped
  have hgathers := (gathers_addFunctions (D := definitions program) (definitions program).1
    (g := .initial) hfunctions fun _ hr ↦ hr).trans
      (gathers_addClasses (definitions program).2 hclasses fun _ hc ↦ hc)
  rwa [List.append_nil, List.nil_append] at hgathers

theorem provides_ofProgram {program : Block} (h : WellFormed program) (main : List Instr) :
    Provides (((definitions program).2.foldl Gathered.addClass
      ((definitions program).1.foldl Gathered.addFunction .initial)).executable main)
      (definitions program) :=
  provides_of_gathers h.functions h.classes (gathers_ofProgram h) main

end

end Offside
