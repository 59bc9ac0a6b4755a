import Offside.Proofs.Answers
import Offside.Proofs.Scope.Ranges
import Offside.Proofs.ThreeAddress.Counting
import Offside.Proofs.Walk.Counting

/-!
Counting loops count exactly. On the tree, a loop over a range runs its body once for each number
below its bound, and computes the bound once. On the machine it does so wherever its code stands:
in the main block, lowered either way, and in the code of functions and methods
(`rangeLoops_exact`).
-/

set_option autoImplicit false
set_option relaxedAutoImplicit false

namespace Offside

open Machine (Advances Loop Trail)
open ThreeAddress (Counters LaidOut Op definitions formLoop labelled_ofBlock laidOut_append
  laidOut_assembled leads_formLoop ofBlock ofStmt placed_formLoop placeOf)
open Walk (RunsShort countTurn eval exec execBlock forEach iterate tick)

/-- The loop on the machine that a counting loop of a program has become: in direct code, or laid
out from three-address form. -/
inductive Stands (name : String) (stop : Expr) (body : Block) : Loop → Prop
  | direct (code : Code) (place : Nat) (g : Gathered)
    (hcode : CodeAt code place ((rangeLoop name stop body).code place g).1) :
    Stands name stop body (directLoop code place g name stop body)
  | laidOut (code : Code) (placeOf : Nat → Nat) (place : Nat) (c : Counters)
    (hops : LaidOut code placeOf place (ofStmt c (rangeLoop name stop body)).1) :
    Stands name stop body (formLoop code place c name stop body)

/-- Every counting loop that occurs in the block is over a range and stands in the code, and
wherever it does, it counts exactly: so does every run that enters it, as long as it is in the loop
or in a call from there. -/
def LoopsCount (e : Executable) (block : Block) (code : Code) : Prop :=
  ∀ name start stop body, Occurs (.forRange name start stop body) block →
    start = .number (.int 0) ∧ (∃ l, Stands name stop body l ∧ l.code = code) ∧
      ∀ l, Stands name stop body l → ∀ m ms m', m.code = l.code → m.place = l.entry →
        Trail (Advances e) m ms m' → (∀ x ∈ ms, l.Within m x) → l.Counts e m ms m'

section

variable {source : String} {program block : Block} {e : Executable} {code : Code} {i : Bool}

theorem Stands.counts {name : String} {stop : Expr} {body : Block} {l : Loop}
    (h : Stands name stop body l) (hscoped : (rangeLoop name stop body).Scoped i Plain)
    {m m' : Machine} {ms : List Machine} (hcode : m.code = l.code) (hplace : m.place = l.entry)
    (htrail : Trail (Advances e) m ms m') (hms : ∀ x ∈ ms, l.Within m x) : l.Counts e m ms m' := by
  cases h with
  | direct code place g h =>
    exact Loop.counts_of_trail (placed_directLoop h hscoped) (leads_directLoop h hscoped e) hcode
      hplace htrail hms
  | laidOut code placeOf place c h =>
    exact Loop.counts_of_trail (placed_formLoop h hscoped) (leads_formLoop h hscoped e) hcode hplace
      htrail hms

theorem loopsCount_direct (hblock : BlockScoped i Plain block) (hzero : FromZero block)
    {place : Nat} {g : Gathered} (hcode : CodeAt code place (codeOfBlock place g block).1) :
    LoopsCount e block code := by
  intro name start stop body hoccurs
  obtain rfl := hzero name start stop body hoccurs
  obtain ⟨place', g', hstands⟩ := hoccurs.codeAt hcode
  exact ⟨rfl, ⟨_, .direct code place' g' hstands, rfl⟩, fun l hl m ms m' ↦
    hl.counts (hoccurs.scoped_of hblock)⟩

theorem loopsCount_laidOut (hblock : BlockScoped i Plain block) (hzero : FromZero block)
    {placeOf : Nat → Nat} {place : Nat} {c : Counters}
    (h : LaidOut code placeOf place (ofBlock c block).1) : LoopsCount e block code := by
  intro name start stop body hoccurs
  obtain rfl := hzero name start stop body hoccurs
  obtain ⟨c', hmet⟩ := hoccurs.mem_met c
  obtain ⟨before, after, hops⟩ := ThreeAddress.infix_of_mem_met block c hmet
  rw [← hops] at h
  have hstands := (laidOut_append.mp (laidOut_append.mp h).1).2
  exact ⟨rfl, ⟨_, .laidOut code placeOf _ c' hstands, rfl⟩, fun l hl m ms m' ↦
    hl.counts (hoccurs.scoped_of hblock)⟩

theorem loopsCount_routine {r : Routine Block} {rc : Routine Code} (h : CompiledFrom r rc)
    (hzero : FromZero r.body) : LoopsCount e r.body rc.body := by
  obtain ⟨hscoped, g, rfl⟩ := h
  obtain ⟨name, params, body⟩ := r
  have hbody := blockScoped_mono (WithParams.plain hscoped.1) hscoped.2
  rw [codeOfRoutine_eq]
  exact loopsCount_direct hbody hzero (codeAt_toArray [] (codeOfBlock 0 g body).1 returnNone)

/-- The counting loops of all blocks of a program count exactly, whichever way it is lowered. -/
theorem loopsCount_of_lower {lowering : Lowering} (h : WellFormed program)
    (hzero : LoopsFromZero program) (he : lower lowering program = .ok e) :
    LoopsCount e program e.main ∧
      (∀ r ∈ (definitions program).1,
        ∃ rc, e.functions.get? r.name = some rc ∧ LoopsCount e r.body rc.body) ∧
      ∀ c ∈ (definitions program).2, ∃ cc, e.classes.get? c.name = some cc ∧
        ∀ n r, c.method? n = some r →
          ∃ rc, cc.methods.get? n = some rc ∧ LoopsCount e r.body rc.body := by
  have hscoped : BlockScoped false Plain program := blockScoped_mono (fun _ hx ↦ hx.elim) h.inScope
  have hroutines (hprovides : Provides e (definitions program)) :
      (∀ r ∈ (definitions program).1,
        ∃ rc, e.functions.get? r.name = some rc ∧ LoopsCount e r.body rc.body) ∧
      ∀ c ∈ (definitions program).2, ∃ cc, e.classes.get? c.name = some cc ∧
        ∀ n r, c.method? n = some r →
          ∃ rc, cc.methods.get? n = some rc ∧ LoopsCount e r.body rc.body := by
    refine ⟨fun r hr ↦ ?_, fun c hc ↦ ?_⟩
    · obtain ⟨rc, hrc, hcompiled⟩ := hprovides.functions r hr
      exact ⟨rc, hrc, loopsCount_routine hcompiled (hzero.functions r hr)⟩
    · obtain ⟨cc, hcc, hcompiled⟩ := hprovides.classes c hc
      refine ⟨cc, hcc, fun n r hr ↦ ?_⟩
      have hmethod := hcompiled.methods n
      have hzero := hzero.methods c hc r (List.mem_of_find?_eq_some hr)
      rw [hr] at hmethod
      generalize cc.methods.get? n = found at hmethod
      cases hmethod with
      | some hcompiled => exact ⟨_, rfl, loopsCount_routine hcompiled hzero⟩
  cases lowering with
  | direct =>
    cases he
    have hmain := codeAt_toArray [] (codeOfBlock 0 .initial program).1 []
    rw [List.append_nil] at hmain
    exact ⟨loopsCount_direct hscoped hzero.main hmain, hroutines (provides_lowerDirect h)⟩
  | threeAddress =>
    rw [lower, executable_ofProgram] at he
    cases he
    have hmain := laidOut_assembled (labelled_ofBlock program ⟨0, 0, 0⟩).nodup
    exact ⟨loopsCount_laidOut hscoped hzero.main hmain, hroutines (provides_ofProgram h _)⟩

/-- On the tree, a counting loop computes its bound and takes its turns from zero. -/
theorem exec_rangeLoop (limits : Limits) (fuel : Nat) (invoke : Walk.Invocation) (name : String)
    (stop : Expr) (body : Block) :
    exec limits fuel invoke (rangeLoop name stop body) = (do
      tick limits
      let bound ← eval invoke stop
      iterate (countTurn limits name (execBlock limits fuel invoke body) bound) fuel
        (.ofNat 0)) := by
  have hzero : eval invoke (.number (.int 0)) = pure (.ofNat 0) := by
    rw [eval]
    rfl
  rw [rangeLoop, Walk.exec_forRange, hzero]
  rfl

end

end Offside
