import Offside.Proofs.Code.Height

/-!
Heights of code that is written down in order. Instructions in a row climb from one height of the
stack to another (`Climbs`). Whatever jumps or returns finds its operands and nothing below them, so
the heights of a block are those along its text, and a jump agrees with them if it lands where the
instructions before leave nothing (`Level`). A block that is level has heights (`Level.heights`).
-/

set_option autoImplicit false
set_option relaxedAutoImplicit false

namespace Offside

/-- Jumps and returns, which need that there is nothing below their operands. -/
def Instr.leaves : Instr → Bool
  | .jump _ => true
  | .jumpIfFalse _ => true
  | .returnValue => true
  | _ => false

/-- Instructions that neither jump or return nor define anything. -/
def Instr.computes : Instr → Bool
  | .defineFunction _ => false
  | .defineClass _ => false
  | i => !i.leaves

theorem Instr.leaves_of_target? {i : Instr} {target : Nat} (h : i.target? = some target) :
    i.leaves = true := by
  cases i <;> first | rfl | cases h

theorem Instr.computes_target? {i : Instr} (h : i.computes = true) : i.target? = none := by
  cases i <;> first | rfl | cases h

/-- The height of the stack behind instructions in a row. -/
def heightBehind : Nat → List Instr → Nat
  | h, [] => h
  | h, i :: is => heightBehind (h - i.pops + i.pushes) is

/-- Instructions in a row find their operands, and take the stack from one height to the other. -/
def Climbs : Nat → List Instr → Nat → Prop
  | h, [], h' => h = h'
  | h, i :: is, h' =>
    i.pops ≤ h ∧ (i.leaves = true → h = i.pops) ∧ Climbs (h - i.pops + i.pushes) is h'

/-! ### Climbing -/

section

variable {h h' h'' : Nat} {is xs ys : List Instr} {i : Instr}

theorem Climbs.append (hxs : Climbs h xs h') (hys : Climbs h' ys h'') :
    Climbs h (xs ++ ys) h'' := by
  induction xs generalizing h with
  | nil => exact (show h = h' from hxs) ▸ hys
  | cons i xs ih => exact ⟨hxs.1, hxs.2.1, ih hxs.2.2⟩

theorem Climbs.heightBehind (hclimbs : Climbs h is h') : Offside.heightBehind h is = h' := by
  induction is generalizing h with
  | nil => exact hclimbs
  | cons i is ih => exact ih hclimbs.2.2

/-- An instruction that goes on in the text. -/
theorem climbs_instr (hleaves : i.leaves = false) (hpops : i.pops ≤ h)
    (hpushes : h' + i.pops = h + i.pushes) : Climbs h [i] h' := by
  refine ⟨hpops, fun hleaves' ↦ absurd (hleaves.symm.trans hleaves') Bool.false_ne_true, ?_⟩
  show h - i.pops + i.pushes = h'
  omega

/-- An instruction that jumps or returns. -/
theorem climbs_leave (hpushes : i.pushes = 0) : Climbs i.pops [i] 0 := by
  refine ⟨Nat.le_refl _, fun _ ↦ rfl, ?_⟩
  show i.pops - i.pops + i.pushes = 0
  omega

/-- Each instruction of a row stands at the height that the instructions before it lead to. -/
theorem Climbs.at (hclimbs : Climbs h is h') {place : Nat} (hi : is[place]? = some i) :
    i.pops ≤ Offside.heightBehind h (is.take place) ∧
      (i.leaves = true → Offside.heightBehind h (is.take place) = i.pops) ∧
      Offside.heightBehind h (is.take (place + 1)) =
        Offside.heightBehind h (is.take place) - i.pops + i.pushes := by
  induction is generalizing h place with
  | nil => cases hi
  | cons j is ih =>
    cases place with
    | zero =>
      cases hi
      exact ⟨hclimbs.1, hclimbs.2.1, rfl⟩
    | succ place => exact ih hclimbs.2.2 hi

end

/-! ### Level code -/

/-- A place in a row of instructions that starts at the given one, with nothing on the stack. -/
def Lands (start : Nat) (is : List Instr) (target : Nat) : Prop :=
  ∃ before after, is = before ++ after ∧ target = start + before.length ∧ Climbs 0 before 0

/-- Instructions that start at a place with nothing on the stack and end so, and whose jumps land
among them or lead to one of the given exits. -/
structure Level (start : Nat) (exits : Nat → Prop) (is : List Instr) : Prop where
  climbs : Climbs 0 is 0
  lands : ∀ i ∈ is, ∀ target, i.target? = some target → exits target ∨ Lands start is target

section

variable {start target : Nat} {exits exits' : Nat → Prop} {is xs ys : List Instr} {i : Instr}

theorem Lands.append_right (h : Lands start xs target) (ys : List Instr) :
    Lands start (xs ++ ys) target := by
  obtain ⟨before, after, rfl, htarget, hclimbs⟩ := h
  exact ⟨before, after ++ ys, List.append_assoc _ _ _, htarget, hclimbs⟩

theorem Lands.append_left (hxs : Climbs 0 xs 0) (h : Lands (start + xs.length) ys target) :
    Lands start (xs ++ ys) target := by
  obtain ⟨before, after, rfl, htarget, hclimbs⟩ := h
  refine ⟨xs ++ before, after, (List.append_assoc _ _ _).symm, ?_, hxs.append hclimbs⟩
  rw [htarget, List.length_append, Nat.add_assoc]

/-- A place between level instructions. -/
theorem lands_between (hxs : Climbs 0 xs 0) (ys : List Instr) :
    Lands start (xs ++ ys) (start + xs.length) :=
  ⟨xs, ys, rfl, rfl, hxs⟩

theorem level_nil : Level start exits [] :=
  ⟨rfl, fun _ hi ↦ absurd hi List.not_mem_nil⟩

theorem level_of_computes (hclimbs : Climbs 0 is 0) (h : ∀ i ∈ is, i.computes = true) :
    Level start exits is :=
  ⟨hclimbs, fun i hi target htarget ↦ by
    rw [Instr.computes_target? (h i hi)] at htarget
    cases htarget⟩

theorem Level.append (hxs : Level start exits xs) (hys : Level (start + xs.length) exits ys) :
    Level start exits (xs ++ ys) := by
  refine ⟨hxs.climbs.append hys.climbs, fun i hi target htarget ↦ ?_⟩
  rcases List.mem_append.mp hi with hi | hi
  · exact (hxs.lands i hi target htarget).imp_right fun h ↦ h.append_right ys
  · exact (hys.lands i hi target htarget).imp_right fun h ↦ h.append_left hxs.climbs

theorem Level.mono (h : Level start exits is) (himp : ∀ t, exits t → exits' t) :
    Level start exits' is :=
  ⟨h.climbs, fun i hi target htarget ↦ (h.lands i hi target htarget).imp_left (himp target)⟩

/-- Exits that are places of the row are none. -/
theorem Level.close (h : Level start exits is) (hexits : ∀ t, exits t → Lands start is t) :
    Level start (fun _ ↦ False) is :=
  ⟨h.climbs, fun i hi target htarget ↦
    .inr ((h.lands i hi target htarget).elim (hexits target) id)⟩

/-- A computation with one value on the stack at its end, and an instruction that takes it. -/
theorem level_leave (hclimbs : Climbs 0 xs i.pops) (h : ∀ j ∈ xs, j.computes = true)
    (hpushes : i.pushes = 0) (hexit : ∀ t, i.target? = some t → exits t) :
    Level start exits (xs ++ [i]) := by
  refine ⟨hclimbs.append (climbs_leave hpushes), fun j hj target htarget ↦ ?_⟩
  rcases List.mem_append.mp hj with hj | hj
  · rw [Instr.computes_target? (h j hj)] at htarget
    cases htarget
  · cases List.mem_singleton.mp hj
    exact .inl (hexit target htarget)

theorem level_jump (hexit : exits target) : Level start exits [.jump target] := by
  have hjump : Level start exits ([] ++ [.jump target]) :=
    level_leave rfl (fun _ hj ↦ absurd hj List.not_mem_nil) rfl fun _ ht ↦
      Option.some.inj ht ▸ hexit
  exact hjump

end

/-! ### Heights -/

section

variable {is : List Instr}

theorem Lands.take {target : Nat} (h : Lands 0 is target) :
    target ≤ is.length ∧ heightBehind 0 (is.take target) = 0 := by
  obtain ⟨before, after, rfl, rfl, hclimbs⟩ := h
  rw [Nat.zero_add, List.take_left', List.length_append]
  · exact ⟨Nat.le_add_right _ _, hclimbs.heightBehind⟩
  · rfl

/-- Level code has the heights along its text, with nothing on the stack at its end. -/
theorem Level.heights (h : Level 0 (fun _ ↦ False) is) :
    Code.Heights is.toArray (fun place ↦ heightBehind 0 (is.take place)) ∧
      heightBehind 0 (is.take is.length) = 0 := by
  have hat {place : Nat} {i : Instr} (hi : is.toArray[place]? = some i) :=
    h.climbs.at (List.getElem?_toArray ▸ hi)
  refine ⟨⟨rfl, fun place i hi ↦ (hat hi).1, fun place i next hi hleads ↦ ?_, fun place hi ↦
    (hat hi).2.1 rfl⟩, List.take_length ▸ h.climbs.heightBehind⟩
  rcases hleads with ⟨-, rfl⟩ | htarget
  · obtain ⟨hlt, -⟩ := Array.getElem?_eq_some_iff.mp hi
    obtain ⟨hpops, -, hnext⟩ := hat hi
    exact ⟨hlt, by rw [hnext]; omega⟩
  · obtain ⟨-, hleaves, -⟩ := hat hi
    obtain ⟨hle, hzero⟩ := ((h.lands i
      (List.mem_of_getElem? (List.getElem?_toArray ▸ hi)) next htarget).resolve_left id).take
    refine ⟨hle, ?_⟩
    rw [hzero, hleaves (Instr.leaves_of_target? htarget)]
    cases i <;> first | rfl | cases htarget

/-- Level code is the code of a main block. -/
theorem Level.balancedMain (h : Level 0 (fun _ ↦ False) is) : Code.BalancedMain is.toArray :=
  ⟨_, h.heights⟩

end

end Offside
