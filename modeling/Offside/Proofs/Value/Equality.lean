import Mathlib
import Offside.Proofs.Number.Order
import Offside.Value.Operations

/-!
Equality of values is the greatest relation that looks into lists element by element
(`equal_iff_alike`). A comparison takes pending pairs of values one after another, in any order, and
expands a pair of lists into the pairs of their elements unless it has done so before (`Takes`). No
pair is expanded twice, so every comparison comes to an end; and the pairs that it has passed relate
equal values, since nothing is left to be looked at once none is pending.
-/

set_option autoImplicit false
set_option relaxedAutoImplicit false

namespace Offside.Heap

open Relation

/-! ### Values of a heap -/

/-- The list that a value refers to, if it is one, is in the heap. -/
def Holds (h : Heap) : Value → Prop
  | .list cell => cell < h.lists.size
  | _ => True

instance (h : Heap) (v : Value) : Decidable (h.Holds v) :=
  match v with
  | .list cell => inferInstanceAs (Decidable (cell < h.lists.size))
  | .number _ | .boolean _ | .object _ | .none => .isTrue trivial

/-- The lists in lists are in the heap. -/
def Closed (h : Heap) : Prop :=
  ∀ vs ∈ h.lists, ∀ v ∈ vs, h.Holds v

instance (h : Heap) : Decidable h.Closed :=
  inferInstanceAs (Decidable (∀ vs ∈ h.lists, ∀ v ∈ vs, h.Holds v))

theorem Closed.elements {h : Heap} (hh : h.Closed) {cell : Nat} {v : Value}
    (hv : v ∈ h.elements cell) : h.Holds v := by
  unfold Heap.elements at hv
  cases hcell : h.lists[cell]? with
  | none =>
    rw [hcell] at hv
    exact absurd hv (Array.not_mem_empty v)
  | some vs =>
    rw [hcell] at hv
    exact hh vs (Array.mem_of_getElem? hcell) v hv

/-! ### The greatest equality -/

/-- Two values are alike as far as they can be seen at once, and `R` relates what is inside. -/
inductive AlikeOver (h : Heap) (R : Value → Value → Prop) : Value → Value → Prop
  | numbers {a b : Value} {x y : Number} (ha : a.number? = some x) (hb : b.number? = some y)
    (heq : Number.compare .eq x y = true) : AlikeOver h R a b
  | sameList (cell : Nat) : AlikeOver h R (.list cell) (.list cell)
  | lists {i j : Nat} (helements : List.Forall₂ R (h.elements i).toList (h.elements j).toList) :
    AlikeOver h R (.list i) (.list j)
  | sameObject (cell : Nat) : AlikeOver h R (.object cell) (.object cell)
  | none : AlikeOver h R .none .none

theorem AlikeOver.mono {h : Heap} {R S : Value → Value → Prop} (hRS : R ≤ S) {a b : Value}
    (hab : h.AlikeOver R a b) : h.AlikeOver S a b := by
  cases hab with
  | numbers ha hb heq => exact .numbers ha hb heq
  | sameList cell => exact .sameList cell
  | lists helements => exact .lists (helements.imp fun x y ↦ hRS x y)
  | sameObject cell => exact .sameObject cell
  | none => exact .none

/-- Looking one level deeper, as an operation on relations. -/
def deepen (h : Heap) : (Value → Value → Prop) →o (Value → Value → Prop) where
  toFun := h.AlikeOver
  monotone' _ _ hRS _ _ := AlikeOver.mono hRS

/-- The greatest relation whose related values are alike over it. -/
def Alike (h : Heap) : Value → Value → Prop :=
  h.deepen.gfp

section

variable {h : Heap} {a b : Value} {i j : Nat}

theorem Alike.unfold (hab : h.Alike a b) : h.AlikeOver h.Alike a b := by
  have hfixed : h.deepen h.Alike = h.Alike := h.deepen.map_gfp
  exact (congrFun₂ hfixed a b).mpr hab

/-- A relation whose related values are alike over it relates only values that are alike. -/
theorem alike_of_le {R : Value → Value → Prop} (hR : ∀ a b, R a b → h.AlikeOver R a b)
    (hab : R a b) : h.Alike a b :=
  h.deepen.le_gfp hR a b hab

theorem Alike.symm (hab : h.Alike a b) : h.Alike b a := by
  refine alike_of_le (R := fun x y ↦ h.Alike y x) (fun x y hyx ↦ ?_) hab
  cases hyx.unfold with
  | numbers ha hb heq => exact .numbers hb ha ((Number.compare_eq_comm _ _).trans heq)
  | sameList cell => exact .sameList cell
  | lists helements => exact .lists helements.flip
  | sameObject cell => exact .sameObject cell
  | none => exact .none

theorem Alike.elements (hij : h.Alike (.list i) (.list j)) (hne : i ≠ j) :
    List.Forall₂ h.Alike (h.elements i).toList (h.elements j).toList := by
  cases hij.unfold with
  | numbers ha hb heq => cases ha
  | sameList cell => exact absurd rfl hne
  | lists helements => exact helements

/-- Values that are equal without looking into lists are alike, whatever is inside. -/
theorem alikeOver_of_plainlyEqual {R : Value → Value → Prop} (hab : a.plainlyEqual b = true) :
    h.AlikeOver R a b := by
  unfold Value.plainlyEqual at hab
  split at hab
  · next x y ha hb => exact .numbers ha hb hab
  · split at hab
    · cases of_decide_eq_true hab
      exact .sameObject _
    · exact .none
    · cases hab

theorem plainlyEqual_or_lists {R : Value → Value → Prop} (hab : h.AlikeOver R a b) :
    a.plainlyEqual b = true ∨ ∃ i j, a = .list i ∧ b = .list j := by
  cases hab with
  | numbers ha hb heq => exact .inl (by simp only [Value.plainlyEqual, ha, hb, heq])
  | sameList cell => exact .inr ⟨_, _, rfl, rfl⟩
  | lists helements => exact .inr ⟨_, _, rfl, rfl⟩
  | sameObject cell => exact .inl (decide_eq_true rfl)
  | none => exact .inl rfl

end

/-! ### Comparisons -/

/-- A comparison under way: the pairs of lists that have been expanded, the latest first, and the
pairs of values that are still to be looked at. -/
structure Comparison where
  expanded : List (Nat × Nat)
  pending : Multiset (Value × Value)

/-- The comparison of two values in front of its first step. -/
def Comparison.start (a b : Value) : Comparison :=
  ⟨[], {(a, b)}⟩

/-- A pending pair is taken and no difference is found. It may be a pair of lists that needs no
look, a pair of lists to expand, or a pair that is equal without looking into lists. -/
inductive Takes (h : Heap) : Value × Value → Comparison → Comparison → Prop
  | known {i j : Nat} {expanded : List (Nat × Nat)} {rest : Multiset (Value × Value)}
    (hknown : i = j ∨ (i, j) ∈ expanded) :
    Takes h (.list i, .list j) ⟨expanded, (.list i, .list j) ::ₘ rest⟩ ⟨expanded, rest⟩
  | expands {i j : Nat} {expanded : List (Nat × Nat)} {rest : Multiset (Value × Value)}
    (hne : i ≠ j) (hfresh : (i, j) ∉ expanded)
    (hsize : (h.elements i).toList.length = (h.elements j).toList.length) :
    Takes h (.list i, .list j) ⟨expanded, (.list i, .list j) ::ₘ rest⟩
      ⟨(i, j) :: expanded, ((h.elements i).toList.zip (h.elements j).toList : List _) + rest⟩
  | plain {a b : Value} {expanded : List (Nat × Nat)} {rest : Multiset (Value × Value)}
    (hequal : a.plainlyEqual b = true) :
    Takes h (a, b) ⟨expanded, (a, b) ::ₘ rest⟩ ⟨expanded, rest⟩

/-- A step of a comparison, which takes one of the pending pairs. -/
def Compares (h : Heap) (c d : Comparison) : Prop :=
  ∃ p, h.Takes p c d

/-- A pair that is taken is plainly equal, or one of lists that are known to be equal or have as
many elements. -/
theorem Takes.cases_pair {h : Heap} {a b : Value} {c d : Comparison}
    (hstep : h.Takes (a, b) c d) :
    a.plainlyEqual b = true ∨ ∃ i j, a = .list i ∧ b = .list j ∧
      ((i = j ∨ (i, j) ∈ c.expanded) ∨ (h.elements i).size = (h.elements j).size) := by
  cases hstep with
  | known hknown => exact .inr ⟨_, _, rfl, rfl, .inl hknown⟩
  | expands hne hfresh hsize => exact .inr ⟨_, _, rfl, rfl, .inr hsize⟩
  | plain hequal => exact .inl hequal

/-! ### The end of a comparison -/

namespace Comparison

/-- No pair has been expanded twice, and all values are of the heap. -/
structure Sound (h : Heap) (c : Comparison) : Prop where
  nodup : c.expanded.Nodup
  expanded : ∀ p ∈ c.expanded, p.1 < h.lists.size ∧ p.2 < h.lists.size
  pending : ∀ p ∈ c.pending, h.Holds p.1 ∧ h.Holds p.2

variable {h : Heap} {c d : Comparison} {p : Value × Value} {a b : Value}

theorem sound_start (ha : h.Holds a) (hb : h.Holds b) : (start a b).Sound h where
  nodup := List.nodup_nil
  expanded := nofun
  pending p hp := by
    cases Multiset.mem_singleton.mp hp
    exact ⟨ha, hb⟩

/-- There are no more pairs to expand than pairs of lists. -/
theorem Sound.length_le (hc : c.Sound h) :
    c.expanded.length ≤ h.lists.size * h.lists.size := by
  have hsubset : c.expanded.toFinset ⊆
      Finset.range h.lists.size ×ˢ Finset.range h.lists.size := fun p hp ↦ by
    simpa using hc.expanded p (List.mem_toFinset.mp hp)
  have hcard := Finset.card_le_card hsubset
  rwa [List.toFinset_card_of_nodup hc.nodup, Finset.card_product, Finset.card_range] at hcard

theorem Sound.takes (hh : h.Closed) (hc : c.Sound h) (hstep : h.Takes p c d) : d.Sound h := by
  cases hstep with
  | known hknown =>
    exact ⟨hc.nodup, hc.expanded, fun p hp ↦ hc.pending p (Multiset.mem_cons_of_mem hp)⟩
  | plain hequal =>
    exact ⟨hc.nodup, hc.expanded, fun p hp ↦ hc.pending p (Multiset.mem_cons_of_mem hp)⟩
  | expands hne hfresh hsize =>
    have hpair := hc.pending _ (Multiset.mem_cons_self _ _)
    refine ⟨List.nodup_cons.mpr ⟨hfresh, hc.nodup⟩, ?_, fun p hp ↦ ?_⟩
    · exact List.forall_mem_cons.mpr ⟨hpair, hc.expanded⟩
    · rcases Multiset.mem_add.mp hp with hp | hp
      · obtain ⟨hleft, hright⟩ := List.of_mem_zip (Multiset.mem_coe.mp hp)
        exact ⟨hh.elements (Array.mem_toList_iff.mp hleft),
          hh.elements (Array.mem_toList_iff.mp hright)⟩
      · exact hc.pending p (Multiset.mem_cons_of_mem hp)

/-- A step expands a pair of lists that has not been expanded, or leaves one pair less pending. -/
theorem takes_decreases (hstep : h.Takes p c d) :
    c.expanded.length < d.expanded.length ∨
      d.expanded.length = c.expanded.length ∧ d.pending.card < c.pending.card := by
  cases hstep with
  | known hknown => exact .inr ⟨rfl, by simp⟩
  | plain hequal => exact .inr ⟨rfl, by simp⟩
  | expands hne hfresh hsize => exact .inl (Nat.lt_succ_self _)

/-- Every comparison comes to an end. -/
theorem Sound.acc (hh : h.Closed) {c : Comparison} (hc : c.Sound h) :
    Acc (fun d c ↦ h.Compares c d) c :=
  ⟨c, fun d ⟨_, hstep⟩ ↦ (hc.takes hh hstep).acc hh⟩
termination_by (h.lists.size * h.lists.size - c.expanded.length, c.pending.card)
decreasing_by
  have hle := (hc.takes hh hstep).length_le
  rcases takes_decreases hstep with hlt | ⟨heq, hlt⟩
  · exact Prod.Lex.left _ _ (by omega)
  · rw [heq]
    exact Prod.Lex.right _ hlt

/-! ### What a comparison finds -/

/-- A pair that needs no further look: one of lists that are the same or have been expanded, or one
that is equal without looking into lists. -/
def Passed (c : Comparison) (x y : Value) : Prop :=
  (∃ i j, x = .list i ∧ y = .list j ∧ (i = j ∨ (i, j) ∈ c.expanded)) ∨ x.plainlyEqual y = true

/-- A pair that is not forgotten: it is pending, or needs no further look. -/
def Keeps (c : Comparison) (x y : Value) : Prop :=
  (x, y) ∈ c.pending ∨ c.Passed x y

theorem Keeps.takes (hstep : h.Takes p c d) {x y : Value} (hkeeps : c.Keeps x y) :
    d.Keeps x y := by
  cases hstep with
  | known hknown =>
    refine hkeeps.elim (fun hmem ↦ ?_) .inr
    rcases Multiset.mem_cons.mp hmem with heq | hmem
    · cases heq
      exact .inr (.inl ⟨_, _, rfl, rfl, hknown⟩)
    · exact .inl hmem
  | plain hequal =>
    refine hkeeps.elim (fun hmem ↦ ?_) .inr
    rcases Multiset.mem_cons.mp hmem with heq | hmem
    · cases heq
      exact .inr (.inr hequal)
    · exact .inl hmem
  | expands hne hfresh hsize =>
    rcases hkeeps with hmem | ⟨i, j, rfl, rfl, hij⟩ | hequal
    · rcases Multiset.mem_cons.mp hmem with heq | hmem
      · cases heq
        exact .inr (.inl ⟨_, _, rfl, rfl, .inr List.mem_cons_self⟩)
      · exact .inl (Multiset.mem_add.mpr (.inr hmem))
    · exact .inr (.inl ⟨i, j, rfl, rfl, hij.imp_right (List.mem_cons_of_mem _)⟩)
    · exact .inr (.inr hequal)

/-- The elements of expanded lists are not forgotten. -/
def Faithful (h : Heap) (c : Comparison) : Prop :=
  ∀ i j, (i, j) ∈ c.expanded → List.Forall₂ c.Keeps (h.elements i).toList (h.elements j).toList

theorem Faithful.takes (hc : c.Faithful h) (hstep : h.Takes p c d) : d.Faithful h := by
  have hbefore (i j : Nat) (hij : (i, j) ∈ c.expanded) :
      List.Forall₂ d.Keeps (h.elements i).toList (h.elements j).toList :=
    (hc i j hij).imp fun x y hxy ↦ hxy.takes hstep
  cases hstep with
  | known hknown => exact hbefore
  | plain hequal => exact hbefore
  | expands hne hfresh hsize =>
    intro i j hij
    rcases List.mem_cons.mp hij with heq | hij
    · cases heq
      exact List.forall₂_iff_zip.mpr ⟨hsize, fun hmem ↦
        .inl (Multiset.mem_add.mpr (.inl (Multiset.mem_coe.mpr hmem)))⟩
    · exact hbefore i j hij

/-- Where nothing is pending, what has been passed is alike. -/
theorem Faithful.alike (hc : c.Faithful h) (hpending : c.pending = 0) (hab : c.Keeps a b) :
    h.Alike a b := by
  have hpassed {x y : Value} (hxy : c.Keeps x y) : c.Passed x y := by
    refine hxy.resolve_left fun hmem ↦ ?_
    rw [hpending] at hmem
    exact Multiset.notMem_zero _ hmem
  refine alike_of_le (R := c.Passed) (fun x y hxy ↦ ?_) (hpassed hab)
  rcases hxy with ⟨i, j, rfl, rfl, rfl | hij⟩ | hequal
  · exact .sameList i
  · exact .lists ((hc i j hij).imp fun x y ↦ hpassed)
  · exact alikeOver_of_plainlyEqual hequal

/-- All pending pairs are alike. -/
def Alike (h : Heap) (c : Comparison) : Prop :=
  ∀ p ∈ c.pending, h.Alike p.1 p.2

theorem Alike.takes (hc : c.Alike h) (hstep : h.Takes p c d) : d.Alike h := by
  cases hstep with
  | known hknown => exact fun p hp ↦ hc p (Multiset.mem_cons_of_mem hp)
  | plain hequal => exact fun p hp ↦ hc p (Multiset.mem_cons_of_mem hp)
  | expands hne hfresh hsize =>
    have helements := (hc _ (Multiset.mem_cons_self _ _)).elements hne
    intro p hp
    rcases Multiset.mem_add.mp hp with hp | hp
    · exact (List.forall₂_iff_zip.mp helements).2 (Multiset.mem_coe.mp hp)
    · exact hc p (Multiset.mem_cons_of_mem hp)

/-- A pending pair that is alike can be taken. -/
theorem exists_takes {p : Value × Value} (hp : p ∈ c.pending) (halike : h.Alike p.1 p.2) :
    ∃ d, h.Takes p c d := by
  obtain ⟨a, b⟩ := p
  obtain ⟨expanded, pending⟩ := c
  obtain ⟨rest, rfl⟩ := Multiset.exists_cons_of_mem hp
  rcases plainlyEqual_or_lists halike.unfold with hequal | ⟨i, j, rfl, rfl⟩
  · exact ⟨_, .plain hequal⟩
  · by_cases hknown : i = j ∨ (i, j) ∈ expanded
    · exact ⟨_, .known hknown⟩
    · rw [not_or] at hknown
      exact ⟨_, .expands hknown.1 hknown.2 (halike.elements hknown.1).length_eq⟩

/-- What holds of every comparison of `a` and `b`, however far it has come. -/
theorem reached (hh : h.Closed) (ha : h.Holds a) (hb : h.Holds b)
    (hreached : ReflTransGen h.Compares (start a b) c) :
    c.Sound h ∧ c.Faithful h ∧ c.Keeps a b ∧ (h.Alike a b → c.Alike h) := by
  induction hreached with
  | refl =>
    refine ⟨sound_start ha hb, nofun, .inl (Multiset.mem_singleton_self _), fun hab p hp ↦ ?_⟩
    cases Multiset.mem_singleton.mp hp
    exact hab
  | tail _ hstep ih =>
    obtain ⟨p, hstep⟩ := hstep
    obtain ⟨hsound, hfaithful, hkeeps, halike⟩ := ih
    exact ⟨hsound.takes hh hstep, hfaithful.takes hstep, hkeeps.takes hstep,
      fun hab ↦ (halike hab).takes hstep⟩

end Comparison

/-! ### The order in which equality compares -/

section

variable {h : Heap} {fresh : Nat} {compared : CellPairs} {expanded : List (Nat × Nat)}

/-- What equality keeps of a comparison: the pairs that have been expanded, and a bound on those
that have not. -/
structure Records (h : Heap) (fresh : Nat) (compared : CellPairs) (expanded : List (Nat × Nat)) :
    Prop where
  has : ∀ i j, compared.has i j = true ↔ (i, j) ∈ expanded
  size : compared.partners.size = h.lists.size
  fresh : h.lists.size * h.lists.size ≤ expanded.length + fresh

theorem records_empty (h : Heap) :
    h.Records (h.lists.size * h.lists.size) (.empty h.lists.size) [] where
  has i j := by simp [CellPairs.has_empty]
  size := Array.size_replicate
  fresh := Nat.le_add_left _ _

theorem Records.add {i j : Nat} (hrecords : h.Records (fresh + 1) compared expanded)
    (hi : i < h.lists.size) : h.Records fresh (compared.add i j) ((i, j) :: expanded) where
  has k l := by
    rw [CellPairs.has_add (hrecords.size ▸ hi), Bool.or_eq_true, hrecords.has, decide_eq_true_iff,
      List.mem_cons, Prod.mk.injEq, @eq_comm _ i, @eq_comm _ j]
  size := by
    rw [CellPairs.add, Array.size_modify]
    exact hrecords.size
  fresh := by
    have hfresh := hrecords.fresh
    rw [List.length_cons]
    omega

/-- Equality takes the first of the pending pairs, or says no where this pair cannot be taken. -/
theorem allEqual_cons (hh : h.Closed) {p : Value × Value} {pending : List (Value × Value)}
    (hrecords : h.Records fresh compared expanded)
    (hsound : Comparison.Sound h ⟨expanded, p ::ₘ (pending : Multiset _)⟩) :
    (∃ fresh' compared' expanded', ∃ pending' : List (Value × Value),
      h.Takes p ⟨expanded, p ::ₘ (pending : Multiset _)⟩ ⟨expanded', pending'⟩ ∧
        h.Records fresh' compared' expanded' ∧
        h.allEqual fresh compared (p :: pending) = h.allEqual fresh' compared' pending') ∨
      (∀ d, ¬h.Takes p ⟨expanded, p ::ₘ (pending : Multiset _)⟩ d) ∧
        h.allEqual fresh compared (p :: pending) = false := by
  obtain ⟨a, b⟩ := p
  by_cases hlists : ∃ i j, a = .list i ∧ b = .list j
  · obtain ⟨i, j, rfl, rfl⟩ := hlists
    by_cases hknown : i = j ∨ (i, j) ∈ expanded
    · have hseen : (decide (i = j) || compared.has i j) = true := by
        simpa [hrecords.has] using hknown
      refine .inl ⟨fresh, compared, expanded, pending, .known hknown, hrecords, ?_⟩
      cases fresh <;> rw [allEqual, if_pos hseen]
    · have hseen : ¬(decide (i = j) || compared.has i j) = true := by
        simpa [hrecords.has] using hknown
      obtain ⟨hne, hunseen⟩ := not_or.mp hknown
      by_cases hsize : (h.elements i).size = (h.elements j).size
      · have hstep := @Takes.expands h i j expanded pending hne hunseen hsize
        have hsound' := hsound.takes hh hstep
        cases fresh with
        | zero =>
          -- One more pair would be expanded than there are.
          have hfresh := hrecords.fresh
          have hle := hsound'.length_le
          rw [List.length_cons] at hle
          omega
        | succ fresh =>
          have hi := (hsound'.expanded (i, j) List.mem_cons_self).1
          refine .inl ⟨fresh, _, _, _, hstep, hrecords.add hi, ?_⟩
          rw [allEqual, if_neg hseen]
          simp only [hsize, decide_true, Bool.true_and]
      · refine .inr ⟨fun d hstep ↦ ?_, ?_⟩
        · obtain hequal | ⟨_, _, hi, hj, hknown' | hsize'⟩ := hstep.cases_pair
          · cases hequal
          · cases hi
            cases hj
            exact hknown hknown'
          · cases hi
            cases hj
            exact hsize hsize'
        · cases fresh <;> rw [allEqual, if_neg hseen]
          simp only [hsize, decide_false, Bool.false_and]
  · have hother : ∀ i j, a = .list i → b = .list j → False :=
      fun i j ha hb ↦ hlists ⟨i, j, ha, hb⟩
    rw [allEqual.eq_4 _ _ _ _ _ _ hother]
    by_cases hequal : a.plainlyEqual b = true
    · exact .inl ⟨fresh, compared, expanded, pending, .plain hequal, hrecords, by rw [hequal]; rfl⟩
    · refine .inr ⟨fun d hstep ↦ ?_, by rw [Bool.eq_false_of_not_eq_true hequal]; rfl⟩
      obtain hequal' | ⟨i, j, ha, hb, -⟩ := hstep.cases_pair
      · exact hequal hequal'
      · exact hother i j ha hb

/-- Equality carries a comparison to its end: it says yes where nothing is left to be looked at, and
no in front of a pair that cannot be taken. -/
theorem allEqual_ends (hh : h.Closed) {pending : List (Value × Value)}
    (hrecords : h.Records fresh compared expanded)
    (hsound : Comparison.Sound h ⟨expanded, pending⟩) :
    ∃ d, ReflTransGen h.Compares ⟨expanded, pending⟩ d ∧
      (h.allEqual fresh compared pending = true ∧ d.pending = 0 ∨
        h.allEqual fresh compared pending = false ∧ ∃ p ∈ d.pending, ∀ e, ¬h.Takes p d e) := by
  generalize hc : (⟨expanded, pending⟩ : Comparison) = c at hsound
  induction hsound.acc hh generalizing fresh compared expanded pending with
  | intro c _ ih =>
    subst hc
    cases pending with
    | nil => exact ⟨_, .refl, .inl ⟨by rw [allEqual], rfl⟩⟩
    | cons p pending =>
      obtain ⟨fresh', compared', expanded', pending', hstep, hrecords', heq⟩ | ⟨hstuck, heq⟩ :=
        allEqual_cons hh hrecords hsound
      · obtain ⟨d, hd, hends⟩ := ih _ ⟨p, hstep⟩ hrecords' rfl (hsound.takes hh hstep)
        exact ⟨d, hd.head ⟨p, hstep⟩, heq ▸ hends⟩
      · exact ⟨_, .refl, .inr ⟨heq, p, Multiset.mem_cons_self p pending, hstuck⟩⟩

/-- Equality and likeness are the same. -/
theorem equal_eq_true_iff {a b : Value} (hh : h.Closed) (ha : h.Holds a) (hb : h.Holds b) :
    h.equal a b = true ↔ h.Alike a b := by
  have hsound : Comparison.Sound h ⟨[], ([(a, b)] : List (Value × Value))⟩ :=
    Comparison.sound_start ha hb
  obtain ⟨d, hd, ⟨hequal, hpending⟩ | ⟨hequal, p, hp, hstuck⟩⟩ :=
    allEqual_ends hh (records_empty h) hsound
  · obtain ⟨-, hfaithful, hkeeps, -⟩ := Comparison.reached hh ha hb hd
    exact iff_of_true hequal (hfaithful.alike hpending hkeeps)
  · obtain ⟨-, -, -, halike⟩ := Comparison.reached hh ha hb hd
    refine iff_of_false (Bool.eq_false_iff.mp hequal) fun hab ↦ ?_
    obtain ⟨e, he⟩ := Comparison.exists_takes hp (halike hab p hp)
    exact hstuck e he

end

/-! ### Equality -/

/-- Equality of values in a heap without references out of it is the greatest relation whose related
values are numbers that compare as equal, the same list, lists whose elements are related in order,
the same instance, or both none. To find out, pending pairs may be taken in any order: every
comparison comes to an end, no comparison expands a pair of lists twice, and it leaves nothing
pending only if the two values are equal, and comes upon a pair that cannot be taken only if they
are not. So `==` is symmetric, and `!=` is its negation. -/
theorem equal_iff_alike {h : Heap} {a b : Value} (hh : h.Closed) (ha : h.Holds a)
    (hb : h.Holds b) :
    (h.equal a b = true ↔ h.Alike a b) ∧
      IsGreatest {R : Value → Value → Prop | ∀ a b, R a b → h.AlikeOver R a b} h.Alike ∧
      Acc (fun d c ↦ h.Compares c d) (.start a b) ∧
      (∀ c, ReflTransGen h.Compares (.start a b) c → c.expanded.Nodup ∧
        (c.pending = 0 → h.equal a b = true) ∧
        ∀ p ∈ c.pending, (∀ d, ¬h.Takes p c d) → h.equal a b = false) ∧
      h.compare .eq a b = .ok (h.equal a b) ∧ h.compare .eq b a = h.compare .eq a b ∧
      h.compare .ne a b = (h.compare .eq a b).map not := by
  have hcomm : h.equal b a = h.equal a b :=
    Bool.eq_iff_iff.mpr ((equal_eq_true_iff hh hb ha).trans
      ((Iff.intro Alike.symm Alike.symm).trans (equal_eq_true_iff hh ha hb).symm))
  refine ⟨equal_eq_true_iff hh ha hb, h.deepen.isGreatest_gfp_le, ?_, fun c hc ↦ ?_, rfl,
    congrArg Except.ok hcomm, rfl⟩
  · exact (Comparison.sound_start ha hb).acc hh
  · obtain ⟨hsound, hfaithful, hkeeps, halike⟩ := Comparison.reached hh ha hb hc
    rw [← Bool.not_eq_true, equal_eq_true_iff hh ha hb]
    refine ⟨hsound.nodup, fun hpending ↦ hfaithful.alike hpending hkeeps,
      fun p hp hstuck hab ↦ ?_⟩
    obtain ⟨d, hd⟩ := Comparison.exists_takes hp (halike hab p hp)
    exact hstuck d hd

/-- Two lists that each hold the number one and then themselves are equal. -/
theorem equal_iff_alike_cycles :
    ∃ h : Heap, h.Closed ∧ h.Holds (.list 0) ∧ h.Holds (.list 1) ∧
      h.elements 0 = #[.ofNat 1, .list 0] ∧ h.elements 1 = #[.ofNat 1, .list 1] ∧
      h.Alike (.list 0) (.list 1) := by
  have hh : (⟨#[#[.ofNat 1, .list 0], #[.ofNat 1, .list 1]], #[]⟩ : Heap).Closed := by decide
  exact ⟨_, hh, by decide, by decide, rfl, rfl,
    (equal_iff_alike hh (by decide) (by decide)).1.mp (by cbv)⟩

end Offside.Heap
