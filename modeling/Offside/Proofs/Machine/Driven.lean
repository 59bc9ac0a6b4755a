import Offside.Proofs.Machine.Frames

/-!
A machine under arbitrary use. Runs and single steps of any executables are done to it one after
another, whatever they end in (`drive`), and it can be looked at in the middle of a run as well as
behind one (`Visited`). At each such moment it is sound, has the limits that it was made with, and
its next step finds the instruction and the frames that it looks for (`driven_sound`).
-/

set_option autoImplicit false
set_option relaxedAutoImplicit false

namespace Offside.Machine

/-- What can be done to a machine: a whole run of an executable, or one step of it. -/
inductive Action
  | run (e : Executable)
  | step (e : Executable)

/-- The machine behind an action, whether it ended in an error or not. There is none if a run does
not end within `fuel` steps. -/
def act (fuel : Nat) (m : Machine) : Action → Option Machine
  | .run e => (runAll fuel m.limits e).map Prod.snd
  | .step e => some (m.step e).2

/-- The machine behind some actions. -/
def drive (fuel : Nat) (actions : List Action) (m : Machine) : Option Machine :=
  actions.foldlM (act fuel) m

/-- The moments of a machine with the given limits: it is new, a run begins, a step has been made in
a run or for itself, or a run has ended and its lines have been collected. -/
inductive Visited (limits : Limits) : Machine → Prop
  | new : Visited limits (start limits #[])
  | begun (m : Machine) (e : Executable) (h : Visited limits m) :
    Visited limits (start m.limits e.main)
  | stepped (m : Machine) (e : Executable) (h : Visited limits m) : Visited limits (m.step e).2
  | collected (m : Machine) (h : Visited limits m) : Visited limits { m with output := #[] }

variable {limits : Limits} {m m' : Machine} {e : Executable}

/-! ### All moments -/

/-- What a machine has become at the end of a run was visited, if its start was. -/
theorem visited_of_runFrom {fuel : Nat} {error : Option RuntimeError}
    (hrun : runFrom e fuel m = some (error, m')) (h : Visited limits m) : Visited limits m' := by
  induction fuel generalizing m with
  | zero => cases hrun
  | succ fuel ih =>
    have hstepped := Visited.stepped m e h
    obtain ⟨hstep, -⟩ | ⟨st, m₁, -, hstep, hrest⟩ | ⟨err, hstep, -⟩ := runFrom_succ hrun
    · rwa [hstep] at hstepped
    · rw [hstep] at hstepped
      exact ih hrest hstepped
    · rwa [hstep] at hstepped

theorem visited_of_act {fuel : Nat} {action : Action} (hact : act fuel m action = some m')
    (h : Visited limits m) : Visited limits m' := by
  cases action with
  | run e =>
    simp only [act, runAll, Option.map_map, Option.map_eq_some_iff] at hact
    obtain ⟨⟨error, m₁⟩, hrun, rfl⟩ := hact
    exact .collected m₁ (visited_of_runFrom hrun (.begun m e h))
  | step e =>
    cases hact
    exact .stepped m e h

/-- Actions lead from moments to moments. -/
theorem visited_of_drive {fuel : Nat} {actions : List Action}
    (hdrive : drive fuel actions m = some m') (h : Visited limits m) : Visited limits m' := by
  induction actions generalizing m with
  | nil =>
    cases hdrive
    exact h
  | cons action actions ih =>
    simp only [drive, List.foldlM_cons] at hdrive
    obtain ⟨m₁, hact, hrest⟩ := Option.bind_eq_some_iff.mp hdrive
    exact ih hrest (visited_of_act hact h)

/-! ### What holds at all moments -/

/-- No step changes the limits. -/
theorem limits_step (m : Machine) (e : Executable) : (m.step e).2.limits = m.limits := by
  have hreturn (m : Machine) (value : Value) : (m.returnValue value).2.limits = m.limits := by
    unfold returnValue
    split <;> rfl
  have hsteps := step_steps e m
  generalize m.step e = o at hsteps ⊢
  cases hsteps with
  | halts hplace hcalls => rfl
  | ends call calls hplace hcalls => exact hreturn m .none
  | stops n hplace => rfl
  | executes i _ hi hadmitted hdoes =>
    cases hdoes with
    | fails m' error hkeeps herror => exact hkeeps.limits
    | goesOn m' hkeeps hfalls hstack => exact hkeeps.limits
    | jumps m' target hkeeps htarget hle hstack => exact hkeeps.limits
    | enters m' r args made hkeeps hr hadmitted hfalls hpushes hstack => exact hkeeps.limits
    | returns value rest call calls hi hstack hcalls => exact hreturn _ value

theorem limits_of_visited (h : Visited limits m) : m.limits = limits := by
  induction h with
  | new => rfl
  | begun m e h ih => exact ih
  | stepped m e h ih => exact (limits_step m e).trans ih
  | collected m h ih => exact ih

theorem Visited.sound (h : Visited limits m) : Sound m := by
  induction h with
  | new => exact sound_start limits #[]
  | begun m e h ih => exact sound_start m.limits e.main
  | stepped m e h ih => exact ih.step e
  | collected m h ih =>
    rw [sound_iff] at ih ⊢
    exact ih

/-- A sound machine stands at the end of its code, where a step halts or returns, or at an
instruction, which a step carries out if it is admitted. -/
theorem Sound.step_cases (h : Sound m) (e : Executable) :
    (m.place = m.code.size ∧
        m.step e = if m.frames.length = 1 then (.ok .halted, m) else m.returnValue .none) ∨
      ∃ hplace : m.place < m.code.size,
        m.step e = match m.limits.admitStep m.steps with
          | .error error => (.error error, m)
          | .ok () => m.next.execute e m.code[m.place] := by
  by_cases hplace : m.place < m.code.size
  · refine .inr ⟨hplace, ?_⟩
    simp only [Machine.step, Array.getElem?_eq_getElem hplace]
    rfl
  · refine .inl ⟨Nat.le_antisymm h.place (Nat.le_of_not_lt hplace), ?_⟩
    simp only [Machine.step, Array.getElem?_eq_none (Nat.le_of_not_lt hplace), length_frames]
    cases m.calls <;> rfl

/-- Whatever is done to a machine, it is sound at each moment and has the limits that it was made
with. Its next step finds an instruction or stands right at the end of its code; a return finds that
it is in the bottom frame, or else takes off a frame with an address and goes on there; and the step
ends in one way or in an error, with the machine at another moment. -/
theorem driven_sound (limits : Limits) :
    (∀ fuel actions m, drive fuel actions (start limits #[]) = some m → Visited limits m) ∧
      ∀ m, Visited limits m →
        m.limits = limits ∧ Sound m ∧ m.frames ≠ [] ∧
        (∀ value, (unwind m.frames = .outside ∧
            m.returnValue value = fail m .returnOutsideFunction) ∨
          ∃ f code place rest m', unwind m.frames = .returned f code place rest ∧
            m.returnValue value = (.ok .returned, m') ∧ m'.frames = rest ∧ m'.code = code ∧
            m'.place = place ∧ m'.stack = f.constructed.getD value :: m.stack) ∧
        ∀ e, ((m.place = m.code.size ∧
            m.step e = if m.frames.length = 1 then (.ok .halted, m) else m.returnValue .none) ∨
          ∃ hplace : m.place < m.code.size,
            m.step e = match m.limits.admitStep m.steps with
              | .error error => (.error error, m)
              | .ok () => m.next.execute e m.code[m.place]) ∧
          ∃ m', Visited limits m' ∧
            ((∃ status, m.step e = (.ok status, m')) ∨ ∃ error, m.step e = (.error error, m')) := by
  refine ⟨fun fuel actions m hdrive ↦ visited_of_drive hdrive .new, fun m h ↦ ?_⟩
  refine ⟨limits_of_visited h, h.sound, ?_, returnValue_unwind m, fun e ↦ ⟨h.sound.step_cases e,
    (m.step e).2, .stepped m e h, ?_⟩⟩
  · exact List.ne_nil_of_length_pos (m.length_frames ▸ Nat.succ_pos _)
  · cases hstep : m.step e with
    | mk result m' =>
      cases result with
      | ok status => exact .inl ⟨status, rfl⟩
      | error error => exact .inr ⟨error, rfl⟩

/-- A routine jumps out of its block, and behind the error the machine is stepped with an executable
that has no code: it stands at the end of the block of the routine, above the global frame. -/
theorem driven_sound_behind_error :
    ∃ m, drive 3 [.run ⟨#[.defineFunction "f", .callFunction "f" 0],
          .ofList [("f", ⟨"f", [], #[.jump 9]⟩)], .empty⟩]
        (start ⟨some 3, some 1⟩ #[]) = some m ∧
      Sound m ∧ m.place = m.code.size ∧ m.frames.length = 2 ∧
      ∃ m', m.step ⟨#[], .empty, .empty⟩ = (.ok .returned, m') ∧ Sound m' := by
  obtain ⟨hvisited, hsound⟩ := driven_sound ⟨some 3, some 1⟩
  have hdrive := hvisited 3 [.run ⟨#[.defineFunction "f", .callFunction "f" 0],
    .ofList [("f", ⟨"f", [], #[.jump 9]⟩)], .empty⟩] _ rfl
  refine ⟨_, rfl, (hsound _ hdrive).2.1, rfl, rfl, _, rfl, ?_⟩
  exact (hsound _ (.stepped _ ⟨#[], .empty, .empty⟩ hdrive)).2.1

end Offside.Machine
