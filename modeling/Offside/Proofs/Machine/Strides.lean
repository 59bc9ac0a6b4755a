import Offside.Proofs.Machine.Callers

/-!
A run seen from one frame. The frame takes strides: steps that stay in it, and calls from it with
all that happens until they return (`Stride`). From the start of a run on, as long as the frame is
open, the machines that are not in a deeper call are those that take its strides
(`Trail.strides`). A stride follows the instructions of the block, and binds no other variable of
the frame than the one that its instruction stores to (`Stride.passes`).
-/

set_option autoImplicit false
set_option relaxedAutoImplicit false

namespace Offside.Machine

/-- Steps in a row, with the machines that take them. -/
inductive Trail (R : Machine → Machine → Prop) (m : Machine) : List Machine → Machine → Prop
  | start : Trail R m [] m
  | step {ms : List Machine} {x y : Machine} (htrail : Trail R m ms x) (hstep : R x y) :
    Trail R m (ms ++ [x]) y

/-- The machines that have as many calls open as the given one. -/
def frame (m : Machine) (ms : List Machine) : List Machine :=
  ms.filter (·.calls.length = m.calls.length)

/-- Behind its first step into a call, which is open in `m'`. -/
def Calling (e : Executable) (y : Machine) (o : Code × Nat × Option Value) (m' : Machine) : Prop :=
  o.1 = y.code ∧ o.2.1 = y.place + 1 ∧ (∃ m₁, Advances e y m₁ ∧ Opened y o m₁) ∧ Opened y o m'

/-- A stride of a frame: a step that stays in it, or a call up to its return. -/
inductive Stride (e : Executable) (y y' : Machine) : Prop
  | step (hstep : Advances e y y') (hdepth : y'.calls.length = y.calls.length)
  | call (o : Code × Nat × Option Value) (m' : Machine) (hcalling : Calling e y o m')
    (hreturned : Returned y o y')

section

variable {e : Executable} {m m' y y' y₁ : Machine} {o : Code × Nat × Option Value}

theorem Passes.depth_eq {kept : String → Prop} (h : Passes kept y y') :
    y'.calls.length = y.calls.length := by
  have horigins := congrArg List.length h.origins_eq
  rwa [List.length_map, List.length_map] at horigins

/-- An instruction that enters a routine falls through and has a value to come. -/
theorem Calling.instr (h : Calling e y o m') :
    ∃ i : Instr, y.code[y.place]? = some i ∧ i.fallsThrough = true ∧ i.pushes = 1 := by
  obtain ⟨-, -, ⟨m₁, hadvances, hopened⟩, -⟩ := h
  have hdepth := hopened.depth_lt
  have hgoes := hadvances.goes
  cases hgoes with
  | stays i _ rest given hi hpasses hleads htakes hgiven hstack =>
    exact absurd (Passes.depth_eq hpasses) (Nat.ne_of_gt hdepth)
  | enters i m' r args rest hi hr hfalls hpushes htakes hfollows => exact ⟨i, hi, hfalls, hpushes⟩
  | returns value rest call _ hvalue hcalls hglobals hcode hplace hstack =>
    rw [hcalls, List.length_cons] at hdepth
    omega

theorem Returned.passes {kept : String → Prop} (h : Returned y o y') (hcode : o.1 = y.code) :
    Passes kept y y' := by
  have houter : y'.outer = y.outer := by
    unfold Machine.outer
    rw [h.calls, h.globals]
  have hvars : y'.vars = y.vars := by
    unfold Machine.vars
    rw [h.calls, h.globals]
  exact ⟨h.code.trans hcode, houter, fun x _ ↦ by rw [hvars]⟩

/-- A stride leads on in the block, and leaves all variables but the one that is stored. -/
theorem Stride.passes (h : Stride e y y') :
    ∃ i : Instr, y.code[y.place]? = some i ∧ i.LeadsTo y.place y'.place ∧
      Passes (fun x ↦ i ≠ .storeVariable x) y y' := by
  cases h with
  | step hstep hdepth =>
    have hgoes := hstep.goes
    cases hgoes with
    | stays i _ rest given hi hpasses hleads htakes hgiven hstack => exact ⟨i, hi, hleads, hpasses⟩
    | enters i m' r args rest hi hr hfalls hpushes htakes hfollows =>
      exact absurd hdepth (Nat.ne_of_gt (opened_enter hfollows).depth_lt)
    | returns value rest call _ hvalue hcalls hglobals hcode hplace hstack =>
      rw [hcalls, List.length_cons] at hdepth
      omega
  | call o m' hcalling hreturned =>
    obtain ⟨i, hi, hfalls, -⟩ := hcalling.instr
    obtain ⟨hcode, hplace, -, -⟩ := hcalling
    exact ⟨i, hi, .inl ⟨hfalls, hreturned.place.trans hplace⟩, hreturned.passes hcode⟩

/-- A step finds the operands of its instruction. -/
theorem Advances.pops_le (h : Advances e y y') {i : Instr} (hi : y.code[y.place]? = some i) :
    i.pops ≤ y.stack.length := by
  have hgoes := h.goes
  cases hgoes with
  | stays i' _ rest given hi' hpasses hleads htakes hgiven hstack =>
    obtain rfl := Option.some.inj (hi.symm.trans hi')
    exact htakes.length ▸ Nat.le_add_left _ _
  | enters i' m' r args rest hi' hr hfalls hpushes htakes hfollows =>
    obtain rfl := Option.some.inj (hi.symm.trans hi')
    exact htakes.length ▸ Nat.le_add_left _ _
  | returns value rest call _ hvalue hcalls hglobals hcode hplace hstack =>
    obtain ⟨hlt, -⟩ := Array.getElem?_eq_some_iff.mp hi
    obtain ⟨hi', hstack'⟩ := hvalue.resolve_right (Nat.not_le_of_lt hlt)
    obtain rfl := Option.some.inj (hi.symm.trans hi')
    rw [hstack']
    exact Nat.le_add_left _ _

theorem Stride.pops_le (h : Stride e y y') {i : Instr} (hi : y.code[y.place]? = some i) :
    i.pops ≤ y.stack.length := by
  cases h with
  | step hstep hdepth => exact hstep.pops_le hi
  | call o m' hcalling hreturned =>
    obtain ⟨-, -, ⟨m₁, hadvances, -⟩, -⟩ := hcalling
    exact hadvances.pops_le hi

/-- A frame is left from a return instruction or from the end of the code. -/
theorem Advances.eq_returnValue (h : Advances e y y') (hdepth : y'.calls.length < y.calls.length)
    {i : Instr} (hi : y.code[y.place]? = some i) : i = .returnValue := by
  have hgoes := h.goes
  cases hgoes with
  | stays i' _ rest given hi' hpasses hleads htakes hgiven hstack =>
    exact absurd (Passes.depth_eq hpasses) (Nat.ne_of_lt hdepth)
  | enters i' m' r args rest hi' hr hfalls hpushes htakes hfollows =>
    have hopened : Opened y (y.code, y.place + 1, y.newInstance? i')
        (m'.enter r args (y.newInstance? i')) := opened_enter hfollows
    exact absurd hopened.depth_lt (Nat.lt_asymm hdepth)
  | returns value rest call _ hvalue hcalls hglobals hcode hplace hstack =>
    obtain ⟨hlt, -⟩ := Array.getElem?_eq_some_iff.mp hi
    obtain ⟨hi', -⟩ := hvalue.resolve_right (Nat.not_le_of_lt hlt)
    exact Option.some.inj (hi.symm.trans hi')

/-- From a machine in its frame on, a run takes strides of the frame, as long as it is open. At the
end it is in the frame, or in a call from it, or it has left the frame by a step. -/
theorem Trail.strides {ms : List Machine} (h : Trail (Advances e) m ms m')
    (hdepth : ∀ x ∈ ms, m.calls.length ≤ x.calls.length) :
    (m'.calls.length = m.calls.length ∧ Trail (Stride e) m (m.frame ms) m') ∨
      ∃ ys y, m.frame ms = ys ++ [y] ∧ Trail (Stride e) m ys y ∧
        y.calls.length = m.calls.length ∧
        ((∃ o, Calling e y o m') ∨ m'.calls.length < m.calls.length ∧ Advances e y m') := by
  induction h with
  | start => exact .inl ⟨rfl, .start⟩
  | @step ms x m' htrail hstep ih =>
    obtain ⟨hdepths, hx⟩ := List.forall_mem_append.mp hdepth
    have hx : m.calls.length ≤ x.calls.length := hx x (List.mem_singleton_self x)
    rw [frame, List.filter_append, ← frame]
    rcases ih hdepths with ⟨hhere, hstrides⟩ | ⟨ys, y, hys, hstrides, hy, hcalling | ⟨hgone, -⟩⟩
    · have hfilter : [x].filter (fun x ↦ decide (x.calls.length = m.calls.length)) = [x] := by
        simp [hhere]
      rw [hfilter]
      have hgoes := hstep.goes
      cases hgoes with
      | stays i _ rest given hi hpasses hleads htakes hgiven hstack =>
        have hsame := Passes.depth_eq hpasses
        exact .inl ⟨hsame.trans hhere, .step hstrides (.step hstep hsame)⟩
      | enters i m₁ r args rest hi hr hfalls hpushes htakes hfollows =>
        have hopened : Opened x (x.code, x.place + 1, x.newInstance? i)
            (m₁.enter r args (x.newInstance? i)) := opened_enter hfollows
        exact .inr ⟨_, x, rfl, hstrides, hhere,
          .inl ⟨_, rfl, rfl, ⟨_, hstep, hopened⟩, hopened⟩⟩
      | returns value rest call _ hvalue hcalls hglobals hcode hplace hstack =>
        refine .inr ⟨_, x, rfl, hstrides, hhere, .inr ⟨?_, hstep⟩⟩
        rw [hcalls, List.length_cons] at hhere
        omega
    · obtain ⟨o, hcode, hplace, hfirst, hopened⟩ := hcalling
      have hdeeper := hopened.depth_lt
      rw [hy] at hdeeper
      have hfilter : [x].filter (fun x ↦ decide (x.calls.length = m.calls.length)) = [] := by
        simp [Nat.ne_of_gt hdeeper]
      rw [hfilter, List.append_nil, hys]
      rcases hopened.goes hstep.goes with hstill | hreturned
      · exact .inr ⟨ys, y, rfl, hstrides, hy, .inl ⟨o, hcode, hplace, hfirst, hstill⟩⟩
      · refine .inl ⟨by rw [hreturned.calls, hy], .step hstrides ?_⟩
        exact .call o x ⟨hcode, hplace, hfirst, hopened⟩ hreturned
    · omega

end

end Offside.Machine
