import Offside.Proofs.Code
import Offside.Proofs.Machine.Counting

/-!
The code of a counting loop in parts. Whichever way a loop is lowered, its code starts the counter,
computes the bound and stores it, leads to the turn and binds the variable, and leads back to the
top behind the body. If its parts jump to each other as they should and store what is theirs, the
loop is placed as a counting loop (`Loop.Parts.placed`).
-/

set_option autoImplicit false
set_option relaxedAutoImplicit false

namespace Offside.Machine.Loop

/-- The code of a counting loop in its parts: one that starts the counter, one that computes the
bound, one that leads to the turn, the body, and one that leads back to the top. -/
structure Parts (l : Loop) (start bound head body tail : List Instr) : Prop where
  setup : CodeAt l.code l.entry (start ++ bound ++ [.storeVariable l.bound])
  stop_eq : l.stop = l.entry + start.length
  fix_eq : l.fix = l.stop + bound.length
  top : CodeAt l.code (l.fix + 1) (head ++ [.storeVariable l.name])
  turn_eq : l.turn = l.fix + 1 + head.length
  block : CodeAt l.code (l.turn + 1) body
  next_eq : l.next = l.turn + 1 + body.length
  behind : CodeAt l.code l.next tail
  exit_eq : l.exit = l.next + tail.length

/-- What the parts of a counting loop may do: where they jump to and what they store. -/
structure Behaved (l : Loop) (start bound head body tail : List Instr) : Prop where
  straight : ∀ i ∈ start ++ bound, i.target? = none
  leaves : ∀ i ∈ head, ∀ t, i.target? = some t → t = l.exit
  closed : ∀ i ∈ body, ∀ t, i.target? = some t → l.turn + 1 ≤ t ∧ t ≤ l.next
  returns : ∀ i ∈ tail, ∀ t, i.target? = some t → t = l.fix + 1
  name_start : .storeVariable l.name ∉ start ++ bound
  counter_bound : .storeVariable l.counter ∉ bound
  counter_body : .storeVariable l.counter ∉ body
  bound_body : .storeVariable l.bound ∉ body
  name_ne_counter : l.name ≠ l.counter
  name_ne_bound : l.name ≠ l.bound
  counter_ne_bound : l.counter ≠ l.bound
  tail_ne : tail ≠ []

/-- A loop of such parts is placed as one. -/
theorem Parts.placed {l : Loop} {start bound head body tail : List Instr}
    (h : l.Parts start bound head body tail) (hbehaved : l.Behaved start bound head body tail) :
    l.Placed := by
  obtain ⟨hsetup, hstop, hfix, htop, hturn, hblock, hnext, hbehind, hexit⟩ := h
  have htail := List.length_pos_iff.mpr hbehaved.tail_ne
  obtain ⟨hfront, hlast, -⟩ := codeAt_append.mp hsetup
  obtain ⟨-, hbound⟩ := codeAt_append.mp hfront
  obtain ⟨hhead, hname, -⟩ := codeAt_append.mp htop
  rw [List.length_append, ← Nat.add_assoc, ← hstop, ← hfix] at hlast
  rw [← hstop] at hbound
  rw [← hturn] at hname
  have hfrontsize : l.entry + (start ++ bound).length = l.fix := by
    rw [List.length_append]
    omega
  have hbody (p : Nat) (hlt : l.turn < p) (hlt' : p < l.next) : l.turn + 1 ≤ p ∧
      p < l.turn + 1 + body.length := by omega
  constructor
  · omega
  · omega
  · omega
  · omega
  · omega
  · exact hlast
  · exact hname
  · intro p i hle hle' hi
    rcases Nat.lt_or_eq_of_le hle' with hlt | rfl
    · obtain ⟨j, hj, hcode⟩ := hfront.mem hle (by omega)
      obtain rfl := Option.some.inj (hi.symm.trans hcode)
      exact hbehaved.straight i hj
    · obtain rfl := Option.some.inj (hi.symm.trans hlast)
      rfl
  · intro p i t hlt hlt' hi htarget
    rcases Nat.lt_trichotomy p l.turn with hhere | rfl | hlater
    · obtain ⟨j, hj, hcode⟩ := hhead.mem (show l.fix + 1 ≤ p from hlt) (by omega)
      obtain rfl := Option.some.inj (hi.symm.trans hcode)
      have := hbehaved.leaves i hj t htarget
      omega
    · obtain rfl := Option.some.inj (hi.symm.trans hname)
      cases htarget
    · rcases Nat.lt_or_ge p l.next with hhere | hlast
      · obtain ⟨j, hj, hcode⟩ := hblock.mem (hbody p hlater hhere).1 (hbody p hlater hhere).2
        obtain rfl := Option.some.inj (hi.symm.trans hcode)
        have := hbehaved.closed i hj t htarget
        omega
      · obtain ⟨j, hj, hcode⟩ := hbehind.mem hlast (by omega)
        obtain rfl := Option.some.inj (hi.symm.trans hcode)
        have := hbehaved.returns i hj t htarget
        omega
  · intro p i t hlt hlt' hi htarget
    obtain ⟨j, hj, hcode⟩ := hblock.mem (hbody p hlt hlt').1 (hbody p hlt hlt').2
    obtain rfl := Option.some.inj (hi.symm.trans hcode)
    have := hbehaved.closed i hj t htarget
    omega
  · intro p hle hle'
    rcases Nat.lt_or_eq_of_le hle' with hlt | rfl
    · exact hfront.ne hbehaved.name_start hle (by omega)
    · rw [hlast]
      exact fun heq ↦ hbehaved.name_ne_bound (Instr.storeVariable.inj (Option.some.inj heq)).symm
  · rintro p (⟨hle, hlt⟩ | ⟨hlt, hlt'⟩)
    · exact hbound.ne hbehaved.counter_bound hle (by omega)
    · exact hblock.ne hbehaved.counter_body (hbody p hlt hlt').1 (hbody p hlt hlt').2
  · exact fun p hlt hlt' ↦ hblock.ne hbehaved.bound_body (hbody p hlt hlt').1 (hbody p hlt hlt').2
  · exact hbehaved.name_ne_counter
  · exact hbehaved.name_ne_bound
  · exact hbehaved.counter_ne_bound

end Offside.Machine.Loop
