import Offside.Proofs.Machine.Effects
import Offside.Proofs.Machine.Reach

/-!
The frames of a machine, under every use of it. A machine can be given any code, malformed or not:
whole runs and single steps of different executables may follow one another, and go on behind an
error. Whatever was done to it, its frames are those of a stack of calls above the global one
(`Sound.stacked`), it stands within its code as each caller does within its own, and it has kept to
its limits. So a return finds no frames or a caller to go on in (`returnValue_unwind`), and the step
of a machine always has an outcome.
-/

set_option autoImplicit false
set_option relaxedAutoImplicit false

namespace Offside

/-- A frame: its variables, the block and the place where its caller goes on, and the instance under
construction. -/
structure Frame where
  vars : Bindings Value
  returnAddress : Option (Code × Nat)
  constructed : Option Value

namespace Machine

/-- The frame of a call. -/
def frameOf (call : Call) : Frame :=
  ⟨call.locals, some (call.callerCode, call.callerPlace), call.constructed⟩

/-- The frame of the global variables. -/
def globalFrame (m : Machine) : Frame :=
  ⟨m.globals, none, none⟩

/-- The frames of a machine, the innermost first. -/
def frames (m : Machine) : List Frame :=
  m.calls.map frameOf ++ [m.globalFrame]

/-! ### The machine on its frames -/

section

variable (m : Machine)

theorem length_frames : m.frames.length = m.calls.length + 1 := by
  simp [frames]

/-- A variable is looked up in the innermost frame, and then in the bottom one. -/
theorem lookup_frames (name : String) :
    m.lookup name = (m.frames.head?.bind fun f ↦ f.vars.get? name).or
      (m.frames.getLast?.bind fun f ↦ f.vars.get? name) := by
  have hbottom : m.frames.getLast? = some m.globalFrame := List.getLast?_concat
  rw [hbottom]
  unfold lookup frames
  cases m.calls with
  | nil => exact (Option.or_self).symm
  | cons call calls => rfl

/-- A variable is bound in the innermost frame. -/
theorem frames_bind (name : String) (value : Value) :
    (m.bind name value).frames =
      m.frames.modifyHead fun f ↦ { f with vars := f.vars.set name value } := by
  unfold bind frames
  cases hcalls : m.calls with
  | nil => simp [globalFrame]
  | cons call calls => rfl

/-- A call puts a frame with the place of its caller above the others. -/
theorem frames_enter (r : Routine Code) (args : List Value) (made : Option Value) :
    (m.enter r args made).frames =
      ⟨.ofList (r.params.zip args), some (m.code, m.place), made⟩ :: m.frames :=
  rfl

end

/-- What a return makes of a stack of frames: it is refused in the bottom frame, and else takes off
the innermost one, if there is one, and goes on at its return address, if it has one. -/
inductive Unwound
  | outside
  | noFrame
  | noAddress
  | returned (frame : Frame) (code : Code) (place : Nat) (rest : List Frame)

def unwind (frames : List Frame) : Unwound :=
  if frames.length = 1 then .outside
  else
    match frames with
    | [] => .noFrame
    | f :: rest =>
      match f.returnAddress with
      | none => .noAddress
      | some (code, place) => .returned f code place rest

/-- A return is one on the frames, and there always is a frame with an address, if it is not the
bottom one. -/
theorem returnValue_unwind (m : Machine) (value : Value) :
    (unwind m.frames = .outside ∧ m.returnValue value = fail m .returnOutsideFunction) ∨
      ∃ f code place rest m', unwind m.frames = .returned f code place rest ∧
        m.returnValue value = (.ok .returned, m') ∧ m'.frames = rest ∧ m'.code = code ∧
        m'.place = place ∧ m'.stack = f.constructed.getD value :: m.stack := by
  obtain ⟨limits, stack, globals, calls, depth, functions, classes, heap, code, place, steps,
    output⟩ := m
  cases calls with
  | nil => exact .inl ⟨rfl, rfl⟩
  | cons call calls =>
    refine .inr ⟨frameOf call, call.callerCode, call.callerPlace,
      calls.map frameOf ++ [⟨globals, none, none⟩], _, ?_, rfl, rfl, rfl, rfl, rfl⟩
    unfold unwind
    rw [length_frames, if_neg (by simp)]
    rfl

/-! ### Sound machines -/

/-- Frames of calls, which have a caller, above one frame, which has none. -/
def Stacked (frames : List Frame) : Prop :=
  ∃ above bottom, frames = above ++ [bottom] ∧ bottom.returnAddress = none ∧
    ∀ f ∈ above, f.returnAddress ≠ none

/-- What holds of a machine whatever was done to it. -/
structure Sound (m : Machine) : Prop where
  stacked : Stacked m.frames
  place : m.place ≤ m.code.size
  saved : ∀ f ∈ m.frames, ∀ code place, f.returnAddress = some (code, place) → place ≤ code.size
  depth : m.frames.length = m.depth + 1
  calls : ∀ limit, m.limits.depth = some limit → m.frames.length ≤ limit + 1
  steps : ∀ limit, m.limits.steps = some limit → m.steps ≤ limit

theorem stacked_frames (m : Machine) : Stacked m.frames := by
  refine ⟨m.calls.map frameOf, m.globalFrame, rfl, rfl, fun f hf ↦ ?_⟩
  obtain ⟨call, -, rfl⟩ := List.mem_map.mp hf
  exact Option.some_ne_none _

theorem mem_frames_of_address {m : Machine} {f : Frame} (hf : f ∈ m.frames) {code : Code}
    {place : Nat} (hreturn : f.returnAddress = some (code, place)) :
    ∃ call ∈ m.calls, (call.callerCode, call.callerPlace) = (code, place) := by
  rcases List.mem_append.mp hf with hf | hf
  · obtain ⟨call, hcall, rfl⟩ := List.mem_map.mp hf
    exact ⟨call, hcall, Option.some.inj hreturn⟩
  · rw [List.mem_singleton.mp hf] at hreturn
    cases hreturn

/-- Soundness, said of the calls. -/
theorem sound_iff {m : Machine} :
    Sound m ↔ m.place ≤ m.code.size ∧
      (∀ o ∈ m.calls.map origin, o.2.1 ≤ o.1.size) ∧ m.depth = (m.calls.map origin).length ∧
      (∀ limit, m.limits.depth = some limit → m.depth ≤ limit) ∧
      ∀ limit, m.limits.steps = some limit → m.steps ≤ limit := by
  have hlength := m.length_frames
  rw [List.length_map]
  constructor
  · intro h
    refine ⟨h.place, fun o ho ↦ ?_, ?_, fun limit hlimit ↦ ?_, h.steps⟩
    · obtain ⟨call, hcall, rfl⟩ := List.mem_map.mp ho
      exact h.saved (frameOf call) (List.mem_append_left _ (List.mem_map_of_mem hcall)) _ _ rfl
    · have := h.depth
      omega
    · have := h.calls limit hlimit
      have := h.depth
      omega
  · rintro ⟨hplace, hsaved, hdepth, hlimit, hsteps⟩
    refine ⟨stacked_frames m, hplace, fun f hf code place hreturn ↦ ?_, by omega,
      fun limit hl ↦ ?_, hsteps⟩
    · obtain ⟨call, hcall, heq⟩ := mem_frames_of_address hf hreturn
      cases heq
      exact hsaved _ (List.mem_map_of_mem hcall)
    · have := hlimit limit hl
      omega

theorem sound_start (limits : Limits) (code : Code) : Sound (start limits code) :=
  sound_iff.mpr ⟨Nat.zero_le _, fun _ ho ↦ absurd ho List.not_mem_nil, rfl,
    fun _ _ ↦ Nat.zero_le _, fun _ _ ↦ Nat.zero_le _⟩

section

variable {e : Executable} {m m' : Machine}

theorem Sound.keeps (h : Sound m) (hkeeps : Keeps e m m') : Sound m' := by
  rw [sound_iff] at h ⊢
  rw [hkeeps.place, hkeeps.code, hkeeps.calls, hkeeps.depth, hkeeps.limits, hkeeps.steps]
  exact h

/-- An admitted step is one more within the limit, and leads at most to the end of the code. -/
theorem Sound.next {i : Instr} (h : Sound m) (hi : m.code[m.place]? = some i)
    (hadmitted : m.limits.admitStep m.steps = .ok ()) : Sound m.next := by
  rw [sound_iff] at h ⊢
  obtain ⟨-, hsaved, hdepth, hlimit, -⟩ := h
  obtain ⟨hlt, -⟩ := Array.getElem?_eq_some_iff.mp hi
  refine ⟨hlt, hsaved, hdepth, hlimit, fun limit hsteps ↦ ?_⟩
  replace hsteps : m.limits.steps = some limit := hsteps
  simp only [Limits.admitStep, hsteps] at hadmitted
  split at hadmitted
  · cases hadmitted
  · next hlt => exact Nat.lt_of_not_le hlt

theorem Sound.jump (h : Sound m) {target : Nat} (htarget : target ≤ m.code.size) :
    Sound { m with place := target } := by
  rw [sound_iff] at h ⊢
  exact ⟨htarget, h.2⟩

/-- An admitted call is one more within the limit, and its caller goes on within its code. -/
theorem Sound.enter (h : Sound m) {r : Routine Code} {args : List Value} {made : Option Value}
    (hadmitted : m.limits.admitEntry r.name r.params args.length m.depth = .ok ()) :
    Sound (m.enter r args made) := by
  rw [sound_iff] at h ⊢
  obtain ⟨hplace, hsaved, hdepth, -, hsteps⟩ := h
  refine ⟨Nat.zero_le _, ?_, congrArg Nat.succ hdepth, fun limit hlimit ↦ ?_, hsteps⟩
  · intro o ho
    rcases List.mem_cons.mp ho with rfl | ho
    · exact hplace
    · exact hsaved o ho
  · replace hlimit : m.limits.depth = some limit := hlimit
    rw [Limits.admitEntry, if_pos (Limits.admitEntry_arity hadmitted)] at hadmitted
    simp only [Limits.admitCall, hlimit] at hadmitted
    split at hadmitted
    · cases hadmitted
    · next hlt => exact Nat.lt_of_not_le hlt

theorem Sound.returnValue (h : Sound m) (value : Value) : Sound (m.returnValue value).2 := by
  cases hcalls : m.calls with
  | nil =>
    rw [show m.returnValue value = fail m .returnOutsideFunction by
      simp only [Machine.returnValue, hcalls]]
    exact h
  | cons call calls =>
    rw [sound_iff] at h
    obtain ⟨-, hsaved, hdepth, hlimit, hsteps⟩ := h
    rw [hcalls, List.map_cons] at hsaved hdepth
    simp only [Machine.returnValue, hcalls]
    refine sound_iff.mpr ⟨hsaved _ List.mem_cons_self,
      fun o ho ↦ hsaved o (List.mem_cons_of_mem _ ho), ?_, fun limit hl ↦ ?_, hsteps⟩
    · show m.depth - 1 = _
      rw [hdepth]
      rfl
    · exact Nat.le_trans (Nat.sub_le _ _) (hlimit limit hl)

theorem Does.sound {i : Instr} {o : Outcome} (hdoes : Does e m i o) (h : Sound m) :
    Sound o.2 := by
  cases hdoes with
  | fails m' error hkeeps herror => exact h.keeps hkeeps
  | goesOn m' hkeeps hfalls hstack => exact h.keeps hkeeps
  | jumps m' target hkeeps htarget hle hstack =>
    exact (h.keeps hkeeps).jump (hkeeps.code ▸ hle)
  | enters m' r args made hkeeps hr hadmitted hfalls hpushes hstack =>
    exact (h.keeps hkeeps).enter (hkeeps.limits ▸ hkeeps.depth ▸ hadmitted)
  | returns value rest call calls hi hstack hcalls =>
    exact (h.keeps (keeps_withStack (e := e) m rest)).returnValue value

/-- A step of any executable, in error or not, leaves a sound machine. -/
theorem Sound.step (h : Sound m) (e : Executable) : Sound (m.step e).2 := by
  have hsteps := step_steps e m
  generalize m.step e = o at hsteps ⊢
  cases hsteps with
  | halts hplace hcalls => exact h
  | ends call calls hplace hcalls => exact h.returnValue .none
  | stops n hplace => exact h
  | executes i _ hi hadmitted hdoes => exact hdoes.sound (h.next hi hadmitted)

end

end Machine

end Offside
