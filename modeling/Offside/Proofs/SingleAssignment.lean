import Offside.Proofs.Realization.Program
import Offside.Proofs.ThreeAddress.Assigned
import Offside.Proofs.ThreeAddress.Loops

/-!
Three-address forms assign every temporary once, before it is read, and can always be assembled.
That holds of every program, checked or not.
-/

set_option autoImplicit false
set_option relaxedAutoImplicit false

namespace Offside.ThreeAddress

/-- Every temporary is written in one place, and control comes to no operation that reads it but
through that place. -/
structure SingleAssignment (ops : List Op) : Prop where
  once : ∀ op ∈ ops, ∀ t, op.writes? = some t ∨ t ∈ op.reads → ∃! i, WritesAt ops t i
  before : ∀ {passed : List Nat} {i : Nat} {op : Op} {t : Nat}, Way ops passed i →
    ops[i]? = some op → t ∈ op.reads → ∃ j ∈ passed, WritesAt ops t j

/-- Every label that operations define or jump to is defined in one place. -/
def LabelsOnce (ops : List Op) : Prop :=
  ∀ op ∈ ops, ∀ l, op.defines? = some l ∨ op.jumpsTo? = some l → ∃! i : Nat, ops[i]? = some (.label l)

/-- What is chosen from a list without repetition is chosen in one place. -/
theorem existsUnique_place {ops : List Op} {f : Op → Option Nat}
    (hnodup : (ops.filterMap f).Nodup) {n : Nat} (hn : n ∈ ops.filterMap f) :
    ∃! i : Nat, ∃ op, ops[i]? = some op ∧ f op = some n := by
  obtain ⟨op, hop, hf⟩ := List.mem_filterMap.mp hn
  obtain ⟨i, hi⟩ := List.mem_iff_getElem?.mp hop
  refine ⟨i, ⟨op, hi, hf⟩, ?_⟩
  rintro j ⟨op', hj, hf'⟩
  obtain ⟨hi', rfl⟩ := List.getElem?_eq_some_iff.mp hi
  obtain ⟨hj', rfl⟩ := List.getElem?_eq_some_iff.mp hj
  have hdistinct := List.pairwise_iff_getElem.mp (List.pairwise_filterMap.mp hnodup)
  rcases Nat.lt_trichotomy i j with hlt | heq | hlt
  · exact absurd rfl (hdistinct i j hi' hj' hlt n hf n hf')
  · exact heq.symm
  · exact absurd rfl (hdistinct j i hj' hi' hlt n hf' n hf)

theorem singleAssignment_ofBlock (program : Block) :
    SingleAssignment (ofBlock ⟨0, 0, 0⟩ program).1 := by
  obtain ⟨known, hknown⟩ := assigns_ofBlock program ⟨0, 0, 0⟩ ∅
  have hassigned := (hknown known fun _ _ _ ↦ rfl).1
  have hnodup := (writes_ofBlock program ⟨0, 0, 0⟩).nodup
  refine ⟨fun op hop t ht ↦ existsUnique_place hnodup ?_, fun hway hop ht ↦
    hassigned.writtenAt hway hop ht⟩
  rcases ht with hwrites | hreads
  · exact List.mem_filterMap.mpr ⟨op, hop, hwrites⟩
  · obtain ⟨i, hi⟩ := List.mem_iff_getElem?.mp hop
    exact hassigned.mem_results hi hreads

theorem labelsOnce_ofBlock (program : Block) : LabelsOnce (ofBlock ⟨0, 0, 0⟩ program).1 := by
  have hlabelled := labelled_ofBlock program ⟨0, 0, 0⟩
  intro op hop l hl
  have hmem : l ∈ definedLabels (ofBlock ⟨0, 0, 0⟩ program).1 := by
    rcases hl with hdefines | hjumps
    · exact List.mem_filterMap.mpr ⟨op, hop, hdefines⟩
    · exact hlabelled.closed l (List.mem_filterMap.mpr ⟨op, hop, hjumps⟩)
  obtain ⟨i, ⟨label, hi, hlabel⟩, hunique⟩ := existsUnique_place hlabelled.nodup hmem
  exact ⟨i, eq_label_of_defines hlabel ▸ hi, fun j hj ↦ hunique j ⟨_, hj, rfl⟩⟩

/-- In the three-address form of every program, every temporary is written in one place, which
control has passed wherever the temporary is read; every label that is defined or jumped to is
defined in one place; and the counting loops that lowering meets count in hidden variables of their
own. So the form can be assembled, and the program compiles. -/
theorem ofProgram_singleAssignment (program : Block) :
    SingleAssignment (ofProgram program).ops ∧ LabelsOnce (ofProgram program).ops ∧
      ((hiddenCounters program).Nodup ∧ ∀ c name start stop body,
        (c, Stmt.forRange name start stop body) ∈ met ⟨0, 0, 0⟩ program →
          ∃ ops, ops <:+: (ofProgram program).ops ∧ CountsIn (loopCounter (c.loops + 1)) name ops) ∧
      (∃ e, (ofProgram program).executable = .ok e) ∧
      ∀ o, ∃ e, compileProgram o program = .ok e := by
  refine ⟨singleAssignment_ofBlock program, labelsOnce_ofBlock program,
    ⟨hiddenCounters_nodup program, fun c name start stop body hmet ↦
      ⟨_, infix_of_mem_met program _ hmet, countsIn_forRange c name start stop body⟩⟩,
    lower_ok .threeAddress program, fun o ↦ ?_⟩
  obtain ⟨e, -, he⟩ := compileProgram_ok o program
  exact ⟨e, he⟩

end Offside.ThreeAddress
