import Mathlib.Data.List.Nodup
import Offside.Proofs.ThreeAddress.Temporaries

/-!
The counting loops of a program. Lowering meets the statements of a program one after another and
gives each counting loop the next number (`consecutive_met`), so that no two of them share a hidden
counter (`hiddenCounters_nodup`). The operations of every statement that is met stand in a row among
those of the program (`infix_of_mem_met`).
-/

set_option autoImplicit false
set_option relaxedAutoImplicit false

namespace Offside.ThreeAddress

mutual

/-- The statements inside a statement that lowering meets, with the counters where it meets them.
Bodies of routines are not part of the form. -/
def metInside (c : Counters) : Stmt → List (Counters × Stmt)
  | .ifElse condition body orelse =>
    let inside := { c with
      temporaries := (ofExpr c.temporaries condition).2.2, labels := c.labels + 2 }
    met inside body ++ met (ofBlock inside body).2 orelse
  | .whileLoop condition body =>
    met { c with temporaries := (ofExpr c.temporaries condition).2.2, labels := c.labels + 2 } body
  | .forRange _ start stop body =>
    met ⟨(loopSetup c start stop).2.2 + 1, c.labels + 2, c.loops + 1⟩ body
  | _ => []

/-- The statements of a block that lowering meets, with the counters where it meets them. -/
def met (c : Counters) : List Stmt → List (Counters × Stmt)
  | [] => []
  | s :: ss => (c, s) :: metInside c s ++ met (ofStmt c s).2 ss

end

/-- The number of a counting loop that has been met. -/
def loopNumber? : Counters × Stmt → Option Nat
  | (c, .forRange _ _ _ _) => some (c.loops + 1)
  | _ => none

/-- The hidden counters of the counting loops that lowering meets in a program. -/
def hiddenCounters (program : Block) : List String :=
  ((met ⟨0, 0, 0⟩ program).filterMap loopNumber?).map loopCounter

/-- Operations that count in a hidden variable: it gets the start, is compared with the bound at the
top of every turn and copied to the variable of the loop, and grows by one behind the body. -/
def CountsIn (counter name : String) (ops : List Op) : Prop :=
  ∃ first start between bound top test body one next exit,
    ops = first ++ .assign start (.variable counter) :: between ++
      [.label top, .compare .lt (.variable counter) bound test,
        .jumpIfFalse (.temporary test) exit, .assign (.variable counter) (.variable name)] ++ body ++
      [.constant (.number (.int 1)) one, .arith .add (.variable counter) (.temporary one) next,
        .assign (.temporary next) (.variable counter), .jump top, .label exit]

theorem countsIn_forRange (c : Counters) (name : String) (start stop : Expr) (body : Block) :
    CountsIn (loopCounter (c.loops + 1)) name (ofStmt c (.forRange name start stop body)).1 := by
  rw [ofStmt_forRange]
  exact ⟨_, _, _ ++ _, _, _, _, _, _, _, _, by simp [loopSetup, loopHead, loopNext]; rfl⟩

/-! ### Numbers of loops -/

mutual

theorem consecutive_metStmt : ∀ (s : Stmt) (c : Counters),
    Consecutive c.loops (ofStmt c s).2.loops (((c, s) :: metInside c s).filterMap loopNumber?)
  | .ifElse condition body orelse, c => by
    rw [ofStmt_ifElse, List.filterMap_cons_none rfl, metInside, List.filterMap_append]
    exact (consecutive_met body { c with
      temporaries := (ofExpr c.temporaries condition).2.2, labels := c.labels + 2 }).append
      (consecutive_met orelse _)
  | .whileLoop condition body, c => by
    rw [ofStmt_whileLoop, List.filterMap_cons_none rfl, metInside]
    exact consecutive_met body { c with
      temporaries := (ofExpr c.temporaries condition).2.2, labels := c.labels + 2 }
  | .forRange name start stop body, c => by
    rw [ofStmt_forRange, List.filterMap_cons_some (f := loopNumber?) rfl, metInside]
    exact (Consecutive.next c.loops).append
      (consecutive_met body ⟨(loopSetup c start stop).2.2 + 1, c.labels + 2, c.loops + 1⟩)
  | .assign _ _, c => .nil c.loops
  | .assignIndex _ _ _, c => .nil c.loops
  | .assignAttribute _ _ _, c => .nil c.loops
  | .print _, c => .nil c.loops
  | .expr _, c => .nil c.loops
  | .define _, c => .nil c.loops
  | .defineClass _, c => .nil c.loops
  | .return none, c => .nil c.loops
  | .return (some _), c => .nil c.loops
  | .pass, c => .nil c.loops

/-- Counting loops are numbered in the order in which they are met. -/
theorem consecutive_met : ∀ (block : List Stmt) (c : Counters),
    Consecutive c.loops (ofBlock c block).2.loops ((met c block).filterMap loopNumber?)
  | [], c => .nil c.loops
  | s :: ss, c => by
    rw [ofBlock_cons, met, List.filterMap_append]
    exact (consecutive_metStmt s c).append (consecutive_met ss _)

end

/-- Counting loops have counters of their own. -/
theorem hiddenCounters_nodup (program : Block) : (hiddenCounters program).Nodup :=
  List.Nodup.map (fun _ _ ↦ hidden_inj) (consecutive_met program ⟨0, 0, 0⟩).nodup

/-! ### The operations of statements that have been met -/

theorem infix_behind {op : Op} {xs ys zs : List Op} : ys <:+: xs ++ op :: ys ++ zs :=
  ⟨xs ++ [op], zs, by simp⟩

mutual

theorem infix_of_mem_metInside : ∀ (s : Stmt) (c : Counters) {x : Counters × Stmt},
    x ∈ metInside c s → (ofStmt x.1 x.2).1 <:+: (ofStmt c s).1
  | .ifElse condition body orelse, c, x, hx => by
    rw [metInside, List.mem_append] at hx
    rw [ofStmt_ifElse]
    rcases hx with hx | hx
    · exact (infix_of_mem_met body _ hx).trans (infix_behind.trans (List.prefix_append _ _).isInfix)
    · exact (infix_of_mem_met orelse _ hx).trans
        ((List.suffix_cons _ _).isInfix.trans infix_behind)
  | .whileLoop condition body, c, x, hx => by
    rw [metInside] at hx
    rw [ofStmt_whileLoop]
    exact (infix_of_mem_met body _ hx).trans infix_behind
  | .forRange name start stop body, c, x, hx => by
    rw [metInside] at hx
    rw [ofStmt_forRange]
    exact (infix_of_mem_met body _ hx).trans (List.infix_append _ _ _)

/-- The operations of a statement that is met stand in a row. -/
theorem infix_of_mem_met : ∀ (block : List Stmt) (c : Counters) {x : Counters × Stmt},
    x ∈ met c block → (ofStmt x.1 x.2).1 <:+: (ofBlock c block).1
  | s :: ss, c, x, hx => by
    rw [met, List.cons_append, List.mem_cons, List.mem_append] at hx
    rw [ofBlock_cons]
    rcases hx with rfl | hx | hx
    · exact (List.prefix_append _ _).isInfix
    · exact (infix_of_mem_metInside s c hx).trans (List.prefix_append _ _).isInfix
    · exact (infix_of_mem_met ss _ hx).trans (List.suffix_append _ _).isInfix

end

end Offside.ThreeAddress
