import Mathlib.Data.List.Basic
import Offside.Proofs.ThreeAddress.Layout

/-!
What assembling three-address operations comes to, whatever the operations: written by hand or by
lowering, with labels and jumps in any order. It fails at the first label that is defined again, or
else at the first jump to a label that is defined nowhere; or else it gives the operations one after
the other, with every jump to the place of what follows its label.
-/

set_option autoImplicit false
set_option relaxedAutoImplicit false

namespace Offside.ThreeAddress

/-! ### What an operation becomes -/

/-- The variables that the code of an operation loads, in order. -/
def Op.loaded : Op → List String
  | .constant _ _ => []
  | .assign source _ => [source.slot]
  | .arith _ left right _ => [left.slot, right.slot]
  | .compare _ left right _ => [left.slot, right.slot]
  | .print value => [value.slot]
  | .label _ => []
  | .jump _ => []
  | .jumpIfFalse condition _ => [condition.slot]
  | .buildList items _ => items.map Operand.slot
  | .loadIndex list position _ => [list, position.slot]
  | .storeIndex list position value => [list, position.slot, value.slot]
  | .call _ args _ => args.map Operand.slot
  | .callMethod object _ args _ => object :: args.map Operand.slot
  | .loadAttribute object _ _ => [object]
  | .storeAttribute object _ value => [object, value.slot]
  | .defineFunction _ => []
  | .defineClass _ => []
  | .returnValue value => value.toList.map Operand.slot

/-- What is done with the loaded values, given the places of the labels. -/
def Op.compute (place : Nat → Nat) : Op → List Instr
  | .constant value _ => [.loadConstant value]
  | .assign _ _ => []
  | .arith op _ _ _ => [.arith op]
  | .compare op _ _ _ => [.compare op]
  | .print _ => [.print]
  | .label _ => []
  | .jump target => [.jump (place target)]
  | .jumpIfFalse _ target => [.jumpIfFalse (place target)]
  | .buildList items _ => [.buildList items.length]
  | .loadIndex _ _ _ => [.loadIndex]
  | .storeIndex _ _ _ => [.storeIndex]
  | .call name args _ => [.callFunction name args.length]
  | .callMethod _ method args _ => [.callMethod method args.length]
  | .loadAttribute _ name _ => [.loadAttribute name]
  | .storeAttribute _ name _ => [.storeAttribute name]
  | .defineFunction name => [.defineFunction name]
  | .defineClass name => [.defineClass name]
  | .returnValue none => [.loadConstant .none, .returnValue]
  | .returnValue (some _) => [.returnValue]

/-- The variable that the code of an operation stores its result in. -/
def Op.stored? : Op → Option String
  | .constant _ result => some (slotOfTemporary result)
  | .assign _ target => some target.slot
  | .arith _ _ _ result => some (slotOfTemporary result)
  | .compare _ _ _ result => some (slotOfTemporary result)
  | .buildList _ result => some (slotOfTemporary result)
  | .loadIndex _ _ result => some (slotOfTemporary result)
  | .call _ _ result => some (slotOfTemporary result)
  | .callMethod _ _ _ result => some (slotOfTemporary result)
  | .loadAttribute _ _ result => some (slotOfTemporary result)
  | _ => none

/-- An operation as the loads of its operands, what is done with them, and the store of the
result. -/
def Op.expansion (place : Nat → Nat) (op : Op) : List Instr :=
  op.loaded.map Instr.loadVariable ++ op.compute place ++ op.stored?.toList.map Instr.storeVariable

theorem Op.code_eq_expansion (place : Nat → Nat) (op : Op) :
    op.code place = op.expansion place := by
  cases op with
  | returnValue value => cases value <;> rfl
  | _ => simp [Op.code, Op.expansion, Op.loaded, Op.compute, Op.stored?, Operand.load, storeResult]

/-! ### What can be wrong with labels, and where they are when nothing is -/

/-- The label is the first that is defined again. -/
def RepeatsFirst (ops : List Op) (l : Nat) : Prop :=
  ∃ before after, ops = before ++ .label l :: after ∧ .label l ∈ before ∧
    (definedLabels before).Nodup

/-- The label is defined nowhere, and of the jumps to such labels the first goes to it. -/
def DanglesFirst (ops : List Op) (l : Nat) : Prop :=
  ∃ before jump after, ops = before ++ jump :: after ∧ jump.jumpsTo? = some l ∧ .label l ∉ ops ∧
    ∀ op ∈ before, ∀ l', op.jumpsTo? = some l' → .label l' ∈ ops

/-- The code is that of the operations one after the other, each as wide as `width` says. A jump
goes as far into the code as the operations before its label are wide, and what stands from there
on is the code of the operations behind the label. -/
def Places (ops : List Op) (code : List Instr) : Prop :=
  ∃ place : Nat → Nat,
    code = ops.flatMap (Op.expansion place) ∧
    (∀ op ∈ ops, (op.expansion place).length = op.width) ∧
    ∀ jump ∈ ops, ∀ l, jump.jumpsTo? = some l → ∃ before after,
      ops = before ++ .label l :: after ∧ place l = totalWidth before ∧ place l ≤ code.length ∧
        code.drop (place l) = after.flatMap (Op.expansion place)

section

variable {ops : List Op} {l : Nat}

theorem mem_definedLabels : l ∈ definedLabels ops ↔ .label l ∈ ops := by
  refine ⟨fun hl ↦ ?_, fun hop ↦ List.mem_filterMap.mpr ⟨_, hop, rfl⟩⟩
  obtain ⟨op, hop, hdefines⟩ := List.mem_filterMap.mp hl
  exact eq_label_of_defines hdefines ▸ hop

/-- What is chosen from a list comes from somewhere in it. -/
theorem filterMap_eq_append_cons {f : Op → Option Nat} {xs ys : List Nat} :
    ops.filterMap f = xs ++ l :: ys ↔ ∃ before op after, ops = before ++ op :: after ∧
      before.filterMap f = xs ∧ f op = some l ∧ after.filterMap f = ys := by
  constructor
  · intro h
    obtain ⟨before, rest, rfl, rfl, hrest⟩ := List.filterMap_eq_append_iff.mp h
    obtain ⟨skipped, op, after, rfl, hskipped, hop, rfl⟩ := List.filterMap_eq_cons_iff.mp hrest
    refine ⟨before ++ skipped, op, after, (List.append_assoc ..).symm, ?_, hop, rfl⟩
    rw [List.filterMap_append, List.filterMap_eq_nil_iff.mpr hskipped, List.append_nil]
  · rintro ⟨before, op, after, rfl, rfl, hop, rfl⟩
    rw [List.filterMap_append, List.filterMap_cons_some hop]

/-- `firstRepeated?` finds the first element that was seen, or stands before in the list. -/
theorem firstRepeated?_eq_some {x : Nat} {xs : List Nat} : ∀ {seen : List Nat},
    firstRepeated? seen xs = some x ↔ ∃ before after, xs = before ++ x :: after ∧ before.Nodup ∧
      (∀ y ∈ before, y ∉ seen) ∧ (x ∈ seen ∨ x ∈ before) := by
  induction xs with
  | nil => simp [firstRepeated?]
  | cons y ys ih =>
    intro seen
    rw [firstRepeated?]
    split
    next hy =>
      constructor
      · intro h
        obtain rfl := Option.some.inj h
        exact ⟨[], ys, rfl, List.nodup_nil, fun _ h ↦ absurd h List.not_mem_nil, .inl hy⟩
      · rintro ⟨before, after, heq, -, hnew, -⟩
        cases before with
        | nil => rw [(List.cons.inj heq).1]
        | cons z before =>
          exact absurd ((List.cons.inj heq).1 ▸ hy) (hnew z List.mem_cons_self)
    next hy =>
      rw [ih]
      constructor
      · rintro ⟨before, after, rfl, hnodup, hnew, hx⟩
        refine ⟨y :: before, after, rfl, List.nodup_cons.mpr ⟨?_, hnodup⟩, ?_, ?_⟩
        · exact fun h ↦ hnew y h List.mem_cons_self
        · exact List.forall_mem_cons.mpr ⟨hy, fun z hz h ↦ hnew z hz (List.mem_cons_of_mem y h)⟩
        · grind
      · rintro ⟨before, after, heq, hnodup, hnew, hx⟩
        cases before with
        | nil => grind
        | cons z before =>
          obtain ⟨rfl, rfl⟩ := List.cons.inj heq
          refine ⟨before, after, rfl, (List.nodup_cons.mp hnodup).2, ?_, ?_⟩
          · have hfresh := (List.nodup_cons.mp hnodup).1
            grind
          · grind

theorem firstRepeated?_definedLabels :
    firstRepeated? [] (definedLabels ops) = some l ↔ RepeatsFirst ops l := by
  rw [firstRepeated?_eq_some]
  constructor
  · rintro ⟨xs, ys, heq, hnodup, -, hl⟩
    obtain ⟨before, op, after, rfl, rfl, hop, -⟩ := filterMap_eq_append_cons.mp heq
    obtain rfl := eq_label_of_defines hop
    exact ⟨before, after, rfl, mem_definedLabels.mp (hl.resolve_left List.not_mem_nil), hnodup⟩
  · rintro ⟨before, after, heq, hl, hnodup⟩
    exact ⟨definedLabels before, definedLabels after,
      filterMap_eq_append_cons.mpr ⟨before, _, after, heq, rfl, rfl, rfl⟩, hnodup,
      fun _ _ ↦ List.not_mem_nil, .inr (mem_definedLabels.mpr hl)⟩

theorem find?_jumps :
    (ops.filterMap Op.jumpsTo?).find? (fun l' ↦ l' ∉ definedLabels ops) = some l ↔
      DanglesFirst ops l := by
  rw [List.find?_eq_some_iff_append]
  simp only [mem_definedLabels, decide_eq_true_eq, Bool.not_eq_true', decide_eq_false_iff_not,
    not_not]
  constructor
  · rintro ⟨hl, xs, ys, heq, hxs⟩
    obtain ⟨before, jump, after, hops, rfl, hjump, -⟩ := filterMap_eq_append_cons.mp heq
    exact ⟨before, jump, after, hops, hjump, hl, fun op hop l' hl' ↦
      hxs l' (List.mem_filterMap.mpr ⟨op, hop, hl'⟩)⟩
  · rintro ⟨before, jump, after, hops, hjump, hl, hbefore⟩
    refine ⟨hl, before.filterMap Op.jumpsTo?, after.filterMap Op.jumpsTo?,
      filterMap_eq_append_cons.mpr ⟨before, jump, after, hops, rfl, hjump, rfl⟩, fun l' hl' ↦ ?_⟩
    obtain ⟨op, hop, hop'⟩ := List.mem_filterMap.mp hl'
    exact hbefore op hop l' hop'

theorem nodup_of_firstRepeated? {xs : List Nat} : ∀ {seen : List Nat},
    firstRepeated? seen xs = none → xs.Nodup ∧ ∀ x ∈ xs, x ∉ seen := by
  induction xs with
  | nil => exact fun _ ↦ ⟨List.nodup_nil, fun _ h ↦ absurd h List.not_mem_nil⟩
  | cons x xs ih =>
    intro seen h
    rw [firstRepeated?] at h
    split at h
    next => cases h
    next hx =>
      obtain ⟨hnodup, hnew⟩ := ih h
      refine ⟨List.nodup_cons.mpr ⟨fun hmem ↦ hnew x hmem List.mem_cons_self, hnodup⟩, ?_⟩
      exact List.forall_mem_cons.mpr ⟨hx, fun y hy hmem ↦ hnew y hy (List.mem_cons_of_mem x hmem)⟩

/-- Operations that define no label twice and all labels they jump to are placed by `placeOf`. -/
theorem places_flatMap_code (hnodup : (definedLabels ops).Nodup)
    (hclosed : ∀ op ∈ ops, ∀ l, op.jumpsTo? = some l → .label l ∈ ops) :
    Places ops (ops.flatMap (Op.code (placeOf ops))) := by
  have hcode : Op.code (placeOf ops) = Op.expansion (placeOf ops) :=
    funext (Op.code_eq_expansion (placeOf ops))
  have hwidth : ∀ xs : List Op, (xs.flatMap (Op.expansion (placeOf ops))).length = totalWidth xs :=
    fun xs ↦ by rw [← hcode, length_flatMap_code]
  rw [hcode]
  refine ⟨placeOf ops, rfl, fun op _ ↦ ?_, fun jump hjump l hl ↦ ?_⟩
  · rw [← hcode, op.length_code]
  · obtain ⟨before, after, rfl⟩ := List.append_of_mem (hclosed jump hjump l hl)
    have hplace := placeOf_of_nodup hnodup
    refine ⟨before, after, rfl, hplace, ?_, ?_⟩
    · rw [hplace, hwidth, totalWidth_append]
      exact Nat.le_add_right _ _
    · rw [List.flatMap_append, List.flatMap_cons, List.drop_left' (by rw [hwidth, hplace])]
      rfl

end

/-! ### What assembling comes to -/

/-- Assembling fails with a label that is defined twice exactly when there is one, and reports the
first that is defined again; else it fails with a label that is jumped to but defined nowhere
exactly when there is one, and reports the first; else it gives the code of the operations one after
the other, in which every jump goes to the code of what follows its label. -/
theorem assemble_exact (ops : List Op) :
    (∀ l, assemble ops = .error (.duplicateLabel l) ↔ RepeatsFirst ops l) ∧
      (∀ l, assemble ops = .error (.undefinedLabel l) ↔
        (∀ l', ¬ RepeatsFirst ops l') ∧ DanglesFirst ops l) ∧
      ((∃ code, assemble ops = .ok code ∧ Places ops code) ↔
        (∀ l, ¬ RepeatsFirst ops l) ∧ ∀ l, ¬ DanglesFirst ops l) := by
  simp only [← firstRepeated?_definedLabels, ← find?_jumps]
  unfold assemble
  cases hrepeated : firstRepeated? [] (definedLabels ops) with
  | some l => simp
  | none =>
    cases hdangling : (ops.filterMap Op.jumpsTo?).find? (fun l ↦ l ∉ definedLabels ops) with
    | some l => simp
    | none =>
      have hclosed : ∀ op ∈ ops, ∀ l, op.jumpsTo? = some l → .label l ∈ ops := by
        intro op hop l hl
        have hdefined := List.find?_eq_none.mp hdangling l (List.mem_filterMap.mpr ⟨op, hop, hl⟩)
        exact mem_definedLabels.mp (by simpa using hdefined)
      have hplaces := places_flatMap_code (nodup_of_firstRepeated? hrepeated).1 hclosed
      simpa using hplaces

/-- A jump over a print to a label at the end goes behind the last instruction. -/
example : assemble [.label 2, .constant (.boolean true) 1, .jumpIfFalse (.temporary 1) 1,
    .print (.temporary 1), .jump 2, .label 1] =
      .ok [.loadConstant (.boolean true), .storeVariable "%t1", .loadVariable "%t1", .jumpIfFalse 7,
        .loadVariable "%t1", .print, .jump 0] := by
  rfl

end Offside.ThreeAddress
