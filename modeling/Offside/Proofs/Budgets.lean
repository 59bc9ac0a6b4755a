import Mathlib
import Offside.Proofs.Machine.Counted
import Offside.Proofs.Machine.Truncation
import Offside.Proofs.Walk.Truncation

/-!
Limits only cut runs short. Under narrower limits a run ends with the answer that it has under wider
ones, or where it meets one of its own limits, with the lines printed up to there
(`narrower_limits_cut_short`). That is so on the machine, whatever the executable, and for trees
that are walked, whether they have been checked or not.
-/

set_option autoImplicit false
set_option relaxedAutoImplicit false

namespace Offside

/-- A run ends with an answer, and whatever fuel it ends with, with no other one. -/
def EndsIn (run : Nat → Option Answer) (a : Answer) : Prop :=
  (∃ fuel, run fuel = some a) ∧ ∀ fuel b, run fuel = some b → b = a

/-- A run under the limits `l` ends if a run under others does, with the same answer or at one of
its own limits with a part of the lines; and where it ends otherwise, the other run ends alike. -/
structure CutShort (l : Limits) (narrow wide : Nat → Option Answer) : Prop where
  ends : ∀ a', EndsIn wide a' → ∃ a, EndsIn narrow a ∧
    (a = a' ∨ (∃ e, a.error = some e ∧ l.Exceeded e) ∧ a.lines <+: a'.lines)
  same : ∀ a, EndsIn narrow a → (∀ n, a.error ≠ some (.stepLimitExceeded n)) →
    (∀ n, a.error ≠ some (.callDepthExceeded n)) → EndsIn wide a

/-- A run ends with at most one answer. -/
def Deterministic (run : Nat → Option Answer) : Prop :=
  ∀ fuel fuel' a b, run fuel = some a → run fuel' = some b → a = b

section

variable {l l' : Limits} {narrow wide : Nat → Option Answer}

theorem Deterministic.endsIn (h : Deterministic wide) (fuel : Nat) {a : Answer}
    (ha : wide fuel = some a) : EndsIn wide a :=
  ⟨⟨fuel, ha⟩, fun fuel' b hb ↦ h fuel' fuel b a hb ha⟩

/-- Runs that are compared fuel by fuel. -/
theorem cutShort_of_fuel (hnarrow : Deterministic narrow) (hwide : Deterministic wide)
    (h : ∀ fuel, narrow fuel = wide fuel ∨ ∃ a, narrow fuel = some a ∧
      (∃ e, a.error = some e ∧ l.Exceeded e) ∧ ∀ a', wide fuel = some a' → a.lines <+: a'.lines) :
    CutShort l narrow wide where
  ends a' ha' := by
    obtain ⟨⟨fuel, hfuel⟩, -⟩ := ha'
    rcases h fuel with hsame | ⟨a, ha, hexceeded, hlines⟩
    · exact ⟨a', hnarrow.endsIn fuel (hsame.trans hfuel), .inl rfl⟩
    · exact ⟨a, hnarrow.endsIn fuel ha, .inr ⟨hexceeded, hlines a' hfuel⟩⟩
  same a ha hsteps hdepth := by
    obtain ⟨⟨fuel, hfuel⟩, -⟩ := ha
    rcases h fuel with hsame | ⟨b, hb, ⟨e, he, hexceeded⟩, -⟩
    · exact hwide.endsIn fuel (hsame.symm.trans hfuel)
    · obtain rfl : a = b := Option.some.inj (hfuel.symm.trans hb)
      cases hexceeded with
      | steps _ => exact absurd he (hsteps _)
      | depth _ => exact absurd he (hdepth _)

/-! ### On the machine -/

theorem Executable.run_deterministic (e : Executable) (l : Limits) : Deterministic (e.run l) := by
  intro fuel fuel' a b ha hb
  obtain ⟨n, hn⟩ := Executable.run_eq_some.mp ha
  obtain ⟨k, hk⟩ := Executable.run_eq_some.mp hb
  exact congrArg Prod.fst (Executable.counted_unique hn hk)

theorem Executable.run_cutShort (e : Executable) (hle : l ≤ l') :
    CutShort l (e.run l) (e.run l') := by
  refine cutShort_of_fuel (e.run_deterministic l) (e.run_deterministic l') fun fuel ↦ ?_
  have hrun (l : Limits) : e.run l fuel =
      (Machine.runFrom e fuel (.start l e.main)).map fun x ↦ ⟨x.2.output.toList, x.1⟩ := by
    rw [Executable.run, Machine.runAll, Option.map_map]
    rfl
  have hstart : Machine.start l e.main = (Machine.start l' e.main).withLimits l := rfl
  rw [hrun l, hrun l', hstart]
  have hstarted : l ≤ (Machine.start l' e.main).limits := hle
  rcases Machine.runFrom_withLimits e fuel hstarted with
    hsame | ⟨error, m, hstops, hexceeded, houtput⟩
  · rw [hsame, Option.map_map]
    exact .inl rfl
  · refine .inr ⟨⟨m.output.toList, some error⟩, ?_, ⟨error, rfl, hexceeded⟩, fun a' ha' ↦ ?_⟩
    · rw [hstops]
      rfl
    · obtain ⟨x, hx, rfl⟩ := Option.map_eq_some_iff.mp ha'
      exact houtput x hx

/-! ### On the tree -/

theorem Walk.lines_of_answer? {o : Except Interrupt Unit × WalkState} {a : Answer}
    (h : Walk.answer? o = some a) : a.lines = o.2.output.toList := by
  obtain ⟨(e | _) | _, s⟩ := o <;> cases h <;> rfl

theorem walk_deterministic (program : Block) (l : Limits) : Deterministic (walk program l) := by
  have hle {fuel fuel' : Nat} {a b : Answer} (hle : fuel ≤ fuel')
      (ha : walk program l fuel = some a) (hb : walk program l fuel' = some b) : a = b := by
    rw [Walk.walk_eq_answer?] at ha hb
    have htruncates := Walk.truncates_program (E := (· = .outOfFuel)) (.inl (Eq.refl l))
      (.inr ⟨hle, rfl⟩) program .initial
    rcases htruncates.same_or_stops with hsame | ⟨i, s, hstops, rfl, -⟩
    · rw [hsame] at ha
      exact Option.some.inj (ha.symm.trans hb)
    · rw [hstops] at ha
      cases ha
  intro fuel fuel' a b ha hb
  rcases Nat.le_total fuel fuel' with h | h
  · exact hle h ha hb
  · exact (hle h hb ha).symm

theorem walk_cutShort (program : Block) (hle : l ≤ l') :
    CutShort l (walk program l) (walk program l') := by
  refine cutShort_of_fuel (walk_deterministic program l) (walk_deterministic program l')
    fun fuel ↦ ?_
  rw [Walk.walk_eq_answer?, Walk.walk_eq_answer?]
  have htruncates := Walk.truncates_program (E := fun i ↦ ∃ e, i = .error e ∧ l.Exceeded e)
    (.inr ⟨hle, fun e he ↦ ⟨e, rfl, he⟩⟩) (.inl (Eq.refl fuel)) program .initial
  rcases htruncates.same_or_stops with hsame | ⟨_, s, hstops, ⟨e, rfl, hexceeded⟩, houtput⟩
  · exact .inl (congrArg Walk.answer? hsame)
  · refine .inr ⟨⟨s.output.toList, some e⟩, ?_, ⟨e, rfl, hexceeded⟩, fun a' ha' ↦ ?_⟩
    · rw [hstops]
      rfl
    · rw [Walk.lines_of_answer? ha']
      exact houtput

end

/-! ### Both ways -/

/-- Limits only truncate. On the machine, for every executable, and on the tree, for every program,
a run under limits that are at most others ends if the run under the others does. It ends with the
same answer, or in one of the two errors of limits, with its own limit in it and a part of the
lines of the other run printed. And if it ends in neither of these errors, the run under the others
ends with the same answer. -/
theorem narrower_limits_cut_short {l l' : Limits} (hle : l ≤ l') :
    (∀ e : Executable, CutShort l (e.run l) (e.run l')) ∧
      ∀ program : Block, CutShort l (walk program l) (walk program l') :=
  ⟨fun e ↦ e.run_cutShort hle, fun program ↦ walk_cutShort program hle⟩

/-- A program that prints twice, with steps for the first line only. -/
theorem narrower_limits_cut_short_print :
    (⟨some 1, some 0⟩ : Limits) ≤ ⟨some 9, none⟩ ∧
      EndsIn (walk [.print (.number (.int 7)), .print (.boolean true)] ⟨some 9, none⟩)
        ⟨["7", "True"], none⟩ ∧
      ∃ a, EndsIn (walk [.print (.number (.int 7)), .print (.boolean true)] ⟨some 1, some 0⟩) a ∧
        a.lines <+: ["7", "True"] := by
  have hle : (⟨some 1, some 0⟩ : Limits) ≤ ⟨some 9, none⟩ := ⟨(by decide : 1 ≤ 9), trivial⟩
  have hwide : EndsIn (walk [.print (.number (.int 7)), .print (.boolean true)] ⟨some 9, none⟩)
      ⟨["7", "True"], none⟩ := (walk_deterministic _ _).endsIn 1 (by cbv)
  obtain ⟨a, ha, hanswer⟩ := ((narrower_limits_cut_short hle).2 _).ends _ hwide
  refine ⟨hle, hwide, a, ha, ?_⟩
  rcases hanswer with rfl | ⟨-, hlines⟩
  · exact List.prefix_refl _
  · exact hlines

end Offside
