import Offside.Proofs.Code
import Offside.Proofs.Scope.Scoped
import Offside.Proofs.ThreeAddress.Loops

/-!
Statements inside a block. A statement occurs in a block if it is one of the block or part of one,
bodies of routines left out (`Occurs`). So do the definitions of a block. Where the code of the
block stands, that of the statement does; and lowering to three-address form meets it.
-/

set_option autoImplicit false
set_option relaxedAutoImplicit false

namespace Offside

open ThreeAddress (definitions definitionsOfStmt met metInside ofStmt ofBlock)

/-- The statement is one of the block, or inside of one, but not in the body of a routine. -/
inductive Occurs (s : Stmt) : List Stmt → Prop
  | here (ss : List Stmt) : Occurs s (s :: ss)
  | later (t : Stmt) (ss : List Stmt) (h : Occurs s ss) : Occurs s (t :: ss)
  | ifBody (condition : Expr) (body orelse ss : List Stmt) (h : Occurs s body) :
    Occurs s (.ifElse condition body orelse :: ss)
  | orelse (condition : Expr) (body orelse ss : List Stmt) (h : Occurs s orelse) :
    Occurs s (.ifElse condition body orelse :: ss)
  | whileBody (condition : Expr) (body ss : List Stmt) (h : Occurs s body) :
    Occurs s (.whileLoop condition body :: ss)
  | forBody (name : String) (start stop : Expr) (body ss : List Stmt) (h : Occurs s body) :
    Occurs s (.forRange name start stop body :: ss)

theorem Occurs.append_right {s : Stmt} {first : List Stmt} (h : Occurs s first) (rest : List Stmt) :
    Occurs s (first ++ rest) := by
  cases h with
  | here ss => exact .here _
  | later t ss h => exact .later t _ (h.append_right rest)
  | ifBody condition body orelse ss h => exact .ifBody condition body orelse _ h
  | orelse condition body orelse ss h => exact .orelse condition body orelse _ h
  | whileBody condition body ss h => exact .whileBody condition body _ h
  | forBody name start stop body ss h => exact .forBody name start stop body _ h

theorem occurs_append {s : Stmt} {first rest : List Stmt} :
    Occurs s (first ++ rest) ↔ Occurs s first ∨ Occurs s rest := by
  induction first with
  | nil => exact ⟨.inr, fun h ↦ h.resolve_left nofun⟩
  | cons t ts ih =>
    constructor
    · intro h
      cases h with
      | here ss => exact .inl (.here ts)
      | later _ ss h => exact (ih.mp h).imp_left (.later t ts)
      | ifBody condition body orelse ss h => exact .inl (.ifBody condition body orelse ts h)
      | orelse condition body orelse ss h => exact .inl (.orelse condition body orelse ts h)
      | whileBody condition body ss h => exact .inl (.whileBody condition body ts h)
      | forBody name start stop body ss h => exact .inl (.forBody name start stop body ts h)
    · exact fun h ↦ h.elim (·.append_right rest) fun h ↦ .later t _ (ih.mpr (.inr h))

mutual

/-- What a block defines outside of the bodies of routines occurs in it. -/
theorem occurs_of_mem_definitionsOfStmt : ∀ s : Stmt,
    (∀ r ∈ (definitionsOfStmt s).1, Occurs (.define r) [s]) ∧
      ∀ c ∈ (definitionsOfStmt s).2, Occurs (.defineClass c) [s]
  | .ifElse condition body orelse => by
    have hbody := occurs_of_mem_definitions body
    have horelse := occurs_of_mem_definitions orelse
    rw [definitionsOfStmt]
    exact ⟨fun r hr ↦ (List.mem_append.mp hr).elim
        (fun hr ↦ .ifBody condition body orelse [] (hbody.1 r hr))
        fun hr ↦ .orelse condition body orelse [] (horelse.1 r hr),
      fun c hc ↦ (List.mem_append.mp hc).elim
        (fun hc ↦ .ifBody condition body orelse [] (hbody.2 c hc))
        fun hc ↦ .orelse condition body orelse [] (horelse.2 c hc)⟩
  | .whileLoop condition body => by
    have hbody := occurs_of_mem_definitions body
    exact ⟨fun r hr ↦ .whileBody condition body [] (hbody.1 r hr),
      fun c hc ↦ .whileBody condition body [] (hbody.2 c hc)⟩
  | .forRange name start stop body => by
    have hbody := occurs_of_mem_definitions body
    exact ⟨fun r hr ↦ .forBody name start stop body [] (hbody.1 r hr),
      fun c hc ↦ .forBody name start stop body [] (hbody.2 c hc)⟩
  | .define r => ⟨fun _ hr ↦ List.mem_singleton.mp hr ▸ .here [], nofun⟩
  | .defineClass c => ⟨nofun, fun _ hc ↦ List.mem_singleton.mp hc ▸ .here []⟩
  | .assign _ _ => ⟨nofun, nofun⟩
  | .assignIndex _ _ _ => ⟨nofun, nofun⟩
  | .assignAttribute _ _ _ => ⟨nofun, nofun⟩
  | .print _ => ⟨nofun, nofun⟩
  | .return _ => ⟨nofun, nofun⟩
  | .expr _ => ⟨nofun, nofun⟩
  | .pass => ⟨nofun, nofun⟩

theorem occurs_of_mem_definitions : ∀ block : List Stmt,
    (∀ r ∈ (definitions block).1, Occurs (.define r) block) ∧
      ∀ c ∈ (definitions block).2, Occurs (.defineClass c) block
  | [] => ⟨nofun, nofun⟩
  | s :: ss => by
    have hfirst := occurs_of_mem_definitionsOfStmt s
    have hrest := occurs_of_mem_definitions ss
    exact ⟨fun r hr ↦ (List.mem_append.mp hr).elim (fun hr ↦ (hfirst.1 r hr).append_right ss)
        fun hr ↦ .later s ss (hrest.1 r hr),
      fun c hc ↦ (List.mem_append.mp hc).elim (fun hc ↦ (hfirst.2 c hc).append_right ss)
        fun hc ↦ .later s ss (hrest.2 c hc)⟩

end

namespace Occurs

variable {s : Stmt} {block : List Stmt}

theorem scoped_of {i : Bool} (h : Occurs s block) (hblock : BlockScoped i Plain block) :
    s.Scoped i Plain := by
  induction h with
  | here ss => exact hblock.1
  | later t ss h ih => exact ih (blockScoped_mono (Stmt.declared_plain hblock.1) hblock.2)
  | ifBody condition body orelse ss h ih => exact ih hblock.1.2.1
  | orelse condition body orelse ss h ih => exact ih hblock.1.2.2
  | whileBody condition body ss h ih => exact ih hblock.1.2
  | forBody name start stop body ss h ih =>
    exact ih (blockScoped_mono (Declaring.plain hblock.1.1) hblock.1.2.2.2)

/-- Where the code of a block stands, that of the statement does. -/
theorem codeAt {code : Code} (h : Occurs s block) {start : Nat} {g : Gathered}
    (hcode : CodeAt code start (codeOfBlock start g block).1) :
    ∃ place g', CodeAt code place (s.code place g').1 := by
  induction h generalizing start g with
  | here ss =>
    rw [codeOfBlock_cons, codeAt_append] at hcode
    exact ⟨start, g, hcode.1⟩
  | later t ss h ih =>
    rw [codeOfBlock_cons, codeAt_append] at hcode
    exact ih hcode.2
  | ifBody condition body orelse ss h ih =>
    rw [codeOfBlock_cons, codeAt_append] at hcode
    cases orelse with
    | nil =>
      rw [code_ifThen] at hcode
      have hblock := (codeAt_append.mp hcode.1).2.2
      exact ih hblock
    | cons t ts =>
      rw [code_ifElse] at hcode
      have hbody := (codeAt_append.mp (codeAt_append.mp hcode.1).1).2.2
      exact ih hbody
  | orelse condition body orelse ss h ih =>
    rw [codeOfBlock_cons, codeAt_append] at hcode
    cases orelse with
    | nil => cases h
    | cons t ts =>
      rw [code_ifElse] at hcode
      have horelse := (codeAt_append.mp hcode.1).2.2
      rw [List.length_append, List.length_cons, ← Nat.add_assoc, ← Nat.add_assoc,
        Nat.add_right_comm (start + condition.code.length) _ 1] at horelse
      exact ih horelse
  | whileBody condition body ss h ih =>
    rw [codeOfBlock_cons, codeAt_append, code_whileLoop] at hcode
    have hbody := (codeAt_append.mp (codeAt_append.mp hcode.1).1).2.2
    exact ih hbody
  | forBody name first stop body ss h ih =>
    rw [codeOfBlock_cons, codeAt_append, code_forRange] at hcode
    have hbody := (codeAt_append.mp (codeAt_append.mp hcode.1).1).2
    rw [List.length_append, ← Nat.add_assoc] at hbody
    exact ih hbody

/-- Lowering to three-address form meets the statement. -/
theorem mem_met (h : Occurs s block) (c : ThreeAddress.Counters) : ∃ c', (c', s) ∈ met c block := by
  induction h generalizing c with
  | here ss => exact ⟨c, List.mem_cons_self⟩
  | later t ss h ih =>
    obtain ⟨c', hmem⟩ := ih (ofStmt c t).2
    exact ⟨c', List.mem_append_right _ hmem⟩
  | ifBody condition body orelse ss h ih =>
    obtain ⟨c', hmem⟩ := ih _
    exact ⟨c', List.mem_append_left _ (List.mem_cons_of_mem _ (List.mem_append_left _ hmem))⟩
  | orelse condition body orelse ss h ih =>
    obtain ⟨c', hmem⟩ := ih _
    exact ⟨c', List.mem_append_left _ (List.mem_cons_of_mem _ (List.mem_append_right _ hmem))⟩
  | whileBody condition body ss h ih =>
    obtain ⟨c', hmem⟩ := ih _
    exact ⟨c', List.mem_append_left _ (List.mem_cons_of_mem _ hmem)⟩
  | forBody name start stop body ss h ih =>
    obtain ⟨c', hmem⟩ := ih _
    exact ⟨c', List.mem_append_left _ (List.mem_cons_of_mem _ hmem)⟩

end Occurs

/-- What a scoped block defines is scoped itself. -/
theorem scoped_of_mem_definitions {i : Bool} {block : Block} (h : BlockScoped i Plain block) :
    (∀ r ∈ (definitions block).1, RoutineScoped Plain r) ∧
      ∀ c ∈ (definitions block).2, ClassScoped Plain c := by
  obtain ⟨hfunctions, hclasses⟩ := occurs_of_mem_definitions block
  exact ⟨fun r hr ↦ ((hfunctions r hr).scoped_of h).2, fun c hc ↦ ((hclasses c hc).scoped_of h).2⟩

end Offside
