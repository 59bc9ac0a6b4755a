import Offside.Compile
import Offside.Proofs.Calls.Fitting
import Offside.Proofs.Except

/-!
What the scope check establishes about calls: in an accepted program all calls by name fit what is
callable behind the program (`fits_of_checkScopes`). A name stays callable with the number of
arguments that it was registered with, for it is never registered again.
-/

set_option autoImplicit false
set_option relaxedAutoImplicit false

namespace Offside.Scope

open ThreeAddress (definitions definitionsOfStmt)

/-- The names that are callable. -/
def Knows (σ : Scope) (n : String) : Prop :=
  ∃ k, σ.callables.get? n = some k

/-- What is callable is so with the number of arguments that `T` gives. -/
def Within (T : String → Option Nat) (σ : Scope) : Prop :=
  ∀ n k, σ.callables.get? n = some k → T n = some k

/-- What a check from `σ` to `σ'` accepts: it keeps what is callable and adds the definitions `d`,
of which there are none inside of a routine; and `fits` holds wherever calls are told by `T` as by
what is callable behind it. -/
structure Accepts (T : String → Option Nat) (i : Bool) (σ σ' : Scope)
    (d : List (Routine Block) × List (Class Block)) (fits : Prop) : Prop where
  kept : ∀ n k, σ.callables.get? n = some k → σ'.callables.get? n = some k
  added : ∀ n, σ'.Knows n → Knowing σ.Knows d n
  nothing : i = true → d = ([], [])
  fits : Within T σ' → fits

section

variable {T : String → Option Nat} {i : Bool} {σ σ₁ σ₂ σ' : Scope}
  {d d' : List (Routine Block) × List (Class Block)} {p q : Prop}

/-- Nothing is registered. -/
theorem accepts_same (hcallables : σ'.callables = σ.callables) (hfits : Within T σ → p) :
    Accepts T i σ σ' ([], []) p where
  kept n k h := hcallables ▸ h
  added n h := (knowing_nil n).mpr (by unfold Knows at h ⊢; rwa [← hcallables])
  nothing _ := rfl
  fits h := hfits fun n k hn ↦ h n k (hcallables ▸ hn)

/-- Only what is callable matters. -/
theorem Accepts.of_callables_eq (h : Accepts T i σ σ' d p) (hstart : σ₁.callables = σ.callables)
    (hend : σ₂.callables = σ'.callables) : Accepts T i σ₁ σ₂ d p where
  kept n k hn := by
    rw [hend]
    exact h.kept n k (hstart ▸ hn)
  added n hn := by
    have hknows : σ₁.Knows = σ.Knows := by
      unfold Knows
      rw [hstart]
    rw [hknows]
    refine h.added n ?_
    unfold Knows at hn ⊢
    rwa [← hend]
  nothing := h.nothing
  fits hT := h.fits fun n k hn ↦ hT n k (hend ▸ hn)

theorem Within.of_kept (h : Within T σ')
    (hkept : ∀ n k, σ.callables.get? n = some k → σ'.callables.get? n = some k) : Within T σ :=
  fun n k hn ↦ h n k (hkept n k hn)

theorem Accepts.and (h : Accepts T i σ σ' d p) (hfits : Within T σ → q) :
    Accepts T i σ σ' d (q ∧ p) :=
  { h with fits := fun hT ↦ ⟨hfits (hT.of_kept h.kept), h.fits hT⟩ }

theorem knowing_append {K : String → Prop} {n : String} (h : Knowing (Knowing K d) d' n) :
    Knowing K (d.1 ++ d'.1, d.2 ++ d'.2) n := by
  rcases h with (h | ⟨r, hr, hn⟩ | ⟨c, hc, hn⟩) | ⟨r, hr, hn⟩ | ⟨c, hc, hn⟩
  · exact .inl h
  · exact .inr (.inl ⟨r, List.mem_append_left _ hr, hn⟩)
  · exact .inr (.inr ⟨c, List.mem_append_left _ hc, hn⟩)
  · exact .inr (.inl ⟨r, List.mem_append_right _ hr, hn⟩)
  · exact .inr (.inr ⟨c, List.mem_append_right _ hc, hn⟩)

theorem Accepts.append (h : Accepts T i σ σ₁ d p) (h' : Accepts T i σ₁ σ' d' q) :
    Accepts T i σ σ' (d.1 ++ d'.1, d.2 ++ d'.2) (p ∧ q) where
  kept n k hn := h'.kept n k (h.kept n k hn)
  added n hn := knowing_append (Knowing.mono h.added n (h'.added n hn))
  nothing hi := by rw [h.nothing hi, h'.nothing hi]; rfl
  fits hT := ⟨h.fits (hT.of_kept h'.kept), h'.fits hT⟩

theorem Accepts.imp (h : Accepts T i σ σ' d p) (himp : p → q) : Accepts T i σ σ' d q :=
  { h with fits := fun hT ↦ himp (h.fits hT) }

/-- A name is registered that was not callable before. -/
theorem accepts_register {name : String} {arity : Nat} (hi : i = false)
    (hfresh : ¬σ.callables.has name = true)
    (hadded : ∀ n, (σ.register name arity).Knows n → Knowing σ.Knows d n)
    (hfits : Within T (σ.register name arity) → p) :
    Accepts T i σ (σ.register name arity) d p where
  kept n k hn := by
    rw [register, Bindings.get?_set_of_ne]
    · exact hn
    · rintro rfl
      exact hfresh (by rw [Bindings.has, hn]; rfl)
  added := hadded
  nothing htrue := by
    rw [hi] at htrue
    cases htrue
  fits := hfits

theorem within_register {name : String} {arity : Nat} (h : Within T (σ.register name arity)) :
    T name = some arity :=
  h name arity (Bindings.get?_set_self σ.callables name arity)

theorem knows_register {name : String} {arity : Nat} {n : String}
    (h : (σ.register name arity).Knows n) : σ.Knows n ∨ name = n := by
  obtain ⟨k, hk⟩ := h
  rw [register, Bindings.get?_set] at hk
  split at hk
  · next hn => exact .inr hn
  · exact .inl ⟨k, hk⟩

theorem fits_of_requireCallable {name : String} {arguments : Nat} {u : Unit}
    (h : σ.requireCallable name arguments = .ok u) (hT : Within T σ) :
    σ.Knows name ∧ T name = some arguments := by
  unfold requireCallable at h
  split at h
  · cases h
  · next arity harity =>
    split at h
    · next heq =>
      subst heq
      exact ⟨⟨arity, harity⟩, hT name arity harity⟩
    · cases h

mutual

theorem fits_of_checkExpr {u : Unit} (hT : Within T σ) :
    ∀ {e : Expr}, checkExpr σ e = .ok u → e.Fits T σ.Knows
  | .number _, _ => trivial
  | .boolean _, _ => trivial
  | .variable _, _ => trivial
  | .arith _ _ _, h => by
    obtain ⟨_, hleft, hright⟩ := bind_eq_ok.mp h
    exact ⟨fits_of_checkExpr hT hleft, fits_of_checkExpr hT hright⟩
  | .compare _ _ _, h => by
    obtain ⟨_, hleft, hright⟩ := bind_eq_ok.mp h
    exact ⟨fits_of_checkExpr hT hleft, fits_of_checkExpr hT hright⟩
  | .call _ _, h => by
    obtain ⟨_, hargs, hname⟩ := bind_eq_ok.mp h
    exact ⟨fits_of_requireCallable hname hT, fit_of_checkExprs hT hargs⟩
  | .list _, h => fit_of_checkExprs hT h
  | .index _ position, h => by
    obtain ⟨_, _, hposition⟩ := bind_eq_ok.mp h
    exact fits_of_checkExpr (e := position) hT hposition
  | .member _ _, _ => trivial
  | .methodCall _ _ args, h => by
    obtain ⟨_, _, hargs⟩ := bind_eq_ok.mp h
    exact fit_of_checkExprs hT (show checkExprs _ args = _ from hargs)

theorem fit_of_checkExprs {u : Unit} (hT : Within T σ) :
    ∀ {es : List Expr}, checkExprs σ es = .ok u → ExprsFit T σ.Knows es
  | [], _ => trivial
  | _ :: _, h => by
    obtain ⟨_, hfirst, hrest⟩ := bind_eq_ok.mp h
    exact ⟨fits_of_checkExpr hT hfirst, fit_of_checkExprs hT hrest⟩

end

/-- The methods of a class that passes the check of its signatures have a first parameter. -/
theorem params_of_checkSignatures {className : String} {u : Unit} {methods : List (Routine Block)} :
    ∀ {seen : List String}, checkSignatures className seen methods = .ok u →
      ∀ m ∈ methods, m.params ≠ [] := by
  induction methods with
  | nil => exact fun _ _ hm ↦ absurd hm List.not_mem_nil
  | cons m ms ih =>
    intro seen h m' hm'
    rw [checkSignatures] at h
    split at h
    · cases h
    · split at h
      · cases h
      · next hhead =>
        rcases List.mem_cons.mp hm' with rfl | hm'
        · rintro hnil
          rw [hnil] at hhead
          exact hhead (Option.some_ne_none _).symm
        · exact ih h m' hm'

end

variable {T : String → Option Nat}

mutual

/-- A statement that passes the check fits. -/
theorem accepts_of_checkStmt {i : Bool} :
    ∀ {s : Stmt} {σ σ' : Scope}, checkStmt i σ s = .ok σ' →
      Accepts T i σ σ' (definitionsOfStmt s) (s.Fits T σ.Knows)
  | .assign _ _, σ, σ', h => by
    obtain ⟨_, hvalue, h⟩ := bind_eq_ok.mp h
    cases h
    exact accepts_same rfl fun hT ↦ fits_of_checkExpr hT hvalue
  | .assignIndex _ _ _, σ, σ', h => by
    obtain ⟨_, _, h⟩ := bind_eq_ok.mp h
    obtain ⟨_, hposition, h⟩ := bind_eq_ok.mp h
    obtain ⟨_, hvalue, h⟩ := bind_eq_ok.mp h
    cases h
    exact accepts_same rfl fun hT ↦ ⟨fits_of_checkExpr hT hposition, fits_of_checkExpr hT hvalue⟩
  | .assignAttribute _ _ _, σ, σ', h => by
    obtain ⟨_, _, h⟩ := bind_eq_ok.mp h
    obtain ⟨_, hvalue, h⟩ := bind_eq_ok.mp h
    cases h
    exact accepts_same rfl fun hT ↦ fits_of_checkExpr hT hvalue
  | .print _, σ, σ', h => by
    obtain ⟨_, hvalue, h⟩ := bind_eq_ok.mp h
    cases h
    exact accepts_same rfl fun hT ↦ fits_of_checkExpr hT hvalue
  | .expr _, σ, σ', h => by
    obtain ⟨_, hvalue, h⟩ := bind_eq_ok.mp h
    cases h
    exact accepts_same rfl fun hT ↦ fits_of_checkExpr hT hvalue
  | .ifElse _ body orelse, σ, σ', h => by
    obtain ⟨_, hcondition, h⟩ := bind_eq_ok.mp h
    obtain ⟨σ₁, hbody, h⟩ := bind_eq_ok.mp h
    obtain ⟨σ₂, horelse, h⟩ := bind_eq_ok.mp h
    cases h
    have hfirst : Accepts T i σ (σ.leave σ₁) (definitions body) (BlockFits T σ.Knows body) :=
      (accepts_of_checkBlock hbody).of_callables_eq rfl rfl
    have hsecond : Accepts T i (σ.leave σ₁) ((σ.leave σ₁).leave σ₂) (definitions orelse)
        (BlockFits T (Knowing σ.Knows (definitions body)) orelse) :=
      ((accepts_of_checkBlock horelse).imp (blockFits_mono hfirst.added)).of_callables_eq rfl rfl
    exact (hfirst.append hsecond).and fun hT ↦ fits_of_checkExpr hT hcondition
  | .whileLoop _ body, σ, σ', h => by
    obtain ⟨_, hcondition, h⟩ := bind_eq_ok.mp h
    obtain ⟨_, hbody, h⟩ := bind_eq_ok.mp h
    cases h
    have hblock : Accepts T i σ (σ.leave _) (definitions body) (BlockFits T σ.Knows body) :=
      (accepts_of_checkBlock hbody).of_callables_eq rfl rfl
    exact hblock.and fun hT ↦ fits_of_checkExpr hT hcondition
  | .forRange name _ _ body, σ, σ', h => by
    obtain ⟨_, hstart, h⟩ := bind_eq_ok.mp h
    obtain ⟨_, hstop, h⟩ := bind_eq_ok.mp h
    obtain ⟨_, hbody, h⟩ := bind_eq_ok.mp h
    cases h
    have hblock : Accepts T i σ (σ.leave _) (definitions body) (BlockFits T σ.Knows body) :=
      (accepts_of_checkBlock hbody).of_callables_eq rfl rfl
    exact (hblock.and fun hT ↦ fits_of_checkExpr hT hstop).and
      fun hT ↦ fits_of_checkExpr hT hstart
  | .define routine, σ, σ', h => by
    rw [checkStmt] at h
    split at h
    · cases h
    · next hi =>
      split at h
      · cases h
      · next hfresh =>
        obtain ⟨_, hroutine, h⟩ := bind_eq_ok.mp h
        cases h
        have hadded (n : String) (hn : (σ.register routine.name routine.params.length).Knows n) :
            Knowing σ.Knows (definitionsOfStmt (.define routine)) n :=
          (knows_register hn).imp_right fun hname ↦
            .inl ⟨routine, List.mem_singleton.mpr rfl, hname⟩
        exact accepts_register (eq_false_of_ne_true hi) hfresh hadded fun hT ↦
          ⟨within_register hT, routineFits_mono hadded (fits_of_checkRoutine hroutine hT)⟩
  | .defineClass definition, σ, σ', h => by
    rw [checkStmt] at h
    split at h
    · cases h
    · next hi =>
      split at h
      · cases h
      · next hfresh =>
        obtain ⟨_, hsignatures, h⟩ := bind_eq_ok.mp h
        obtain ⟨_, hclass, h⟩ := bind_eq_ok.mp h
        cases h
        have hadded (n : String)
            (hn : (σ.register definition.name definition.constructorArity).Knows n) :
            Knowing σ.Knows (definitionsOfStmt (.defineClass definition)) n :=
          (knows_register hn).imp_right fun hname ↦
            .inr ⟨definition, List.mem_singleton.mpr rfl, hname⟩
        exact accepts_register (eq_false_of_ne_true hi) hfresh hadded fun hT ↦
          ⟨within_register hT, classFits_mono hadded
            (fits_of_checkClass hclass (params_of_checkSignatures hsignatures) hT)⟩
  | .return none, σ, σ', h => by
    rw [checkStmt] at h
    split at h
    · cases h
      exact accepts_same rfl fun _ ↦ trivial
    · cases h
  | .return (some _), σ, σ', h => by
    rw [checkStmt] at h
    split at h
    · obtain ⟨_, hvalue, h⟩ := bind_eq_ok.mp h
      cases h
      exact accepts_same rfl fun hT ↦ fits_of_checkExpr hT hvalue
    · cases h
  | .pass, σ, σ', h => by
    cases h
    exact accepts_same rfl fun _ ↦ trivial

theorem accepts_of_checkBlock {i : Bool} :
    ∀ {block : List Stmt} {σ σ' : Scope}, checkBlock i σ block = .ok σ' →
      Accepts T i σ σ' (definitions block) (BlockFits T σ.Knows block)
  | [], σ, σ', h => by
    cases h
    exact accepts_same rfl fun _ ↦ trivial
  | _ :: _, σ, σ', h => by
    obtain ⟨σ₁, hfirst, hrest⟩ := bind_eq_ok.mp h
    have haccepts := accepts_of_checkStmt hfirst
    exact (haccepts.append (accepts_of_checkBlock hrest)).imp fun hfits ↦
      ⟨hfits.1, blockFits_mono haccepts.added hfits.2⟩

theorem fits_of_checkRoutine {σ : Scope} {u : Unit} :
    ∀ {r : Routine (List Stmt)}, checkRoutine σ r = .ok u → Within T σ → RoutineFits T σ.Knows r
  | ⟨_, params, body⟩, h, hT => by
    obtain ⟨σ', hbody, _⟩ := bind_eq_ok.mp h
    have haccepts : Accepts T true (σ.enter params) σ' (definitions body) _ :=
      accepts_of_checkBlock hbody
    have hnothing := haccepts.nothing rfl
    refine ⟨hnothing, haccepts.fits fun n k hn ↦ ?_⟩
    -- Nothing has become callable in the body.
    obtain ⟨k', hk'⟩ := (knowing_nil n).mp (hnothing ▸ haccepts.added n ⟨k, hn⟩)
    have hkept := haccepts.kept n k' hk'
    rw [hn] at hkept
    exact hT n k (Option.some.inj hkept ▸ hk')

theorem fits_of_checkMethods {σ : Scope} {u : Unit} :
    ∀ {ms : List (Routine (List Stmt))}, checkMethods σ ms = .ok u → (∀ m ∈ ms, m.params ≠ []) →
      Within T σ → MethodsFit T σ.Knows ms
  | [], _, _, _ => trivial
  | m :: ms, h, hparams, hT => by
    obtain ⟨_, hfirst, hrest⟩ := bind_eq_ok.mp h
    exact ⟨⟨hparams m List.mem_cons_self, fits_of_checkRoutine hfirst hT⟩,
      fits_of_checkMethods hrest (fun m' hm' ↦ hparams m' (List.mem_cons_of_mem m hm')) hT⟩

theorem fits_of_checkClass {σ : Scope} {u : Unit} :
    ∀ {c : Class (List Stmt)}, checkClass σ c = .ok u → (∀ m ∈ c.methods, m.params ≠ []) →
      Within T σ → ClassFits T σ.Knows c
  | ⟨_, _⟩, h, hparams, hT => fits_of_checkMethods h hparams hT

end

/-- In an accepted program, all calls by name fit what is callable behind the program. -/
theorem fits_of_checkScopes {program : Block} {u : Unit} (h : checkScopes program = .ok u) :
    ∃ T : String → Option Nat, BuiltinsFit T ∧
      BlockFits T (fun n ↦ (Builtin.ofName? n).isSome) program := by
  obtain ⟨σ, hblock, -⟩ := bind_eq_ok.mp h
  have haccepts := accepts_of_checkBlock (T := σ.callables.get?) hblock
  have hinitial (n : String) : Scope.initial.callables.get? n =
      (Builtin.ofName? n).map Builtin.arity := by
    show (if Builtin.len.name = n then some _ else none) = Option.map _ (List.find? _ _)
    by_cases hn : Builtin.len.name = n <;> simp [Builtin.all, Builtin.arity, hn]
  refine ⟨σ.callables.get?, fun n b hb ↦ haccepts.kept n _ ?_, ?_⟩
  · rw [hinitial, hb]
    rfl
  · refine blockFits_mono (fun n hn ↦ ?_) (haccepts.fits fun n k hk ↦ hk)
    obtain ⟨k, hk⟩ := hn
    rw [hinitial] at hk
    obtain ⟨b, hb, -⟩ := Option.map_eq_some_iff.mp hk
    rw [hb]
    rfl

end Offside.Scope
