import Offside.Proofs.Except
import Offside.Proofs.Reading.Names
import Offside.Proofs.Scope.Scoped
import Mathlib.Data.List.Nodup

/-!
What the scope check establishes: an accepted program is well formed (`wellFormed_of_analyze`). The
check of variables is read off its text; that definitions have names of their own follows from the
callables, to which each definition adds a name that was not there before.
-/

set_option autoImplicit false
set_option relaxedAutoImplicit false

namespace Offside.Scope

open ThreeAddress (definitions definitionsOfStmt)

/-! ### Variables -/

section

variable {σ σ' : Scope}

theorem requireVisible_eq_ok {name : String} {u : Unit} (h : σ.requireVisible name = .ok u) :
    name ∈ σ.visible := by
  rw [requireVisible] at h
  split at h
  · assumption
  · cases h

mutual

theorem reads_of_checkExpr {u : Unit} :
    ∀ {e : Expr}, checkExpr σ e = .ok u → e.Reads (· ∈ σ.visible)
  | .number _, _ => trivial
  | .boolean _, _ => trivial
  | .variable _, h => requireVisible_eq_ok h
  | .arith _ _ _, h => by
    obtain ⟨_, hleft, hright⟩ := bind_eq_ok.mp h
    exact ⟨reads_of_checkExpr hleft, reads_of_checkExpr hright⟩
  | .compare _ _ _, h => by
    obtain ⟨_, hleft, hright⟩ := bind_eq_ok.mp h
    exact ⟨reads_of_checkExpr hleft, reads_of_checkExpr hright⟩
  | .call _ _, h => by
    obtain ⟨_, hargs, _⟩ := bind_eq_ok.mp h
    exact read_of_checkExprs hargs
  | .list _, h => read_of_checkExprs h
  | .index _ _, h => by
    obtain ⟨_, hname, hposition⟩ := bind_eq_ok.mp h
    exact ⟨requireVisible_eq_ok hname, reads_of_checkExpr hposition⟩
  | .member _ _, h => requireVisible_eq_ok h
  | .methodCall _ _ _, h => by
    obtain ⟨_, hobject, hargs⟩ := bind_eq_ok.mp h
    exact ⟨requireVisible_eq_ok hobject, read_of_checkExprs hargs⟩

theorem read_of_checkExprs {u : Unit} :
    ∀ {es : List Expr}, checkExprs σ es = .ok u → ExprsRead (· ∈ σ.visible) es
  | [], _ => trivial
  | _ :: _, h => by
    obtain ⟨_, hfirst, hrest⟩ := bind_eq_ok.mp h
    exact ⟨reads_of_checkExpr hfirst, read_of_checkExprs hrest⟩

end

/-- Methods that pass the check of their signatures have names of their own, all of them new. -/
theorem apart_of_checkSignatures {className : String} {u : Unit} {methods : List (Routine Block)} :
    ∀ {seen : List String}, checkSignatures className seen methods = .ok u →
      (∀ m ∈ methods, m.name ∉ seen) ∧ (methods.map Routine.name).Nodup := by
  induction methods with
  | nil => simp
  | cons m ms ih =>
    intro seen h
    rw [checkSignatures] at h
    split at h
    · cases h
    · next hm =>
      split at h
      · cases h
      · obtain ⟨hnew, hnodup⟩ := ih h
        refine ⟨fun m' hm' ↦ ?_, List.nodup_cons.mpr ⟨fun hmem ↦ ?_, hnodup⟩⟩
        · rcases List.mem_cons.mp hm' with rfl | hm'
          · exact hm
          · exact fun hseen ↦ hnew m' hm' (List.mem_cons_of_mem _ hseen)
        · obtain ⟨m', hm', hname⟩ := List.mem_map.mp hmem
          exact hnew m' hm' (hname ▸ List.mem_cons_self)

end

theorem apart_of_nodup {α : Type} {name : α → String} {xs : List α} (h : (xs.map name).Nodup) :
    Apart name xs :=
  fun _ ha _ hb hname ↦ List.inj_on_of_nodup_map h ha hb hname

theorem mem_visible_declare {σ : Scope} {name x : String} (h : x ∈ (σ.declare name).visible) :
    Declaring name (· ∈ σ.visible) x :=
  List.mem_cons.mp h

theorem mem_visible_enter {σ : Scope} {params : List String} {x : String}
    (h : x ∈ (σ.enter params).visible) : WithParams params (· ∈ σ.visible) x :=
  List.mem_append.mp h

mutual

/-- A statement that passes the check is scoped, and what is visible behind it is what it
declares. -/
theorem scoped_of_checkStmt {i : Bool} :
    ∀ {s : Stmt} {σ σ' : Scope}, checkStmt i σ s = .ok σ' → s.BindsPlainly →
      s.Scoped i (· ∈ σ.visible) ∧ ∀ x, x ∈ σ'.visible → s.declared (· ∈ σ.visible) x
  | .assign name value, σ, σ', h, hplain => by
    obtain ⟨_, hvalue, h⟩ := bind_eq_ok.mp h
    cases h
    exact ⟨⟨hplain, reads_of_checkExpr hvalue⟩, fun x ↦ mem_visible_declare⟩
  | .assignIndex name position value, σ, σ', h, _ => by
    obtain ⟨_, hname, h⟩ := bind_eq_ok.mp h
    obtain ⟨_, hposition, h⟩ := bind_eq_ok.mp h
    obtain ⟨_, hvalue, h⟩ := bind_eq_ok.mp h
    cases h
    exact ⟨⟨requireVisible_eq_ok hname, reads_of_checkExpr hposition, reads_of_checkExpr hvalue⟩,
      fun _ hx ↦ hx⟩
  | .assignAttribute object name value, σ, σ', h, _ => by
    obtain ⟨_, hobject, h⟩ := bind_eq_ok.mp h
    obtain ⟨_, hvalue, h⟩ := bind_eq_ok.mp h
    cases h
    exact ⟨⟨requireVisible_eq_ok hobject, reads_of_checkExpr hvalue⟩, fun _ hx ↦ hx⟩
  | .print value, σ, σ', h, _ => by
    obtain ⟨_, hvalue, h⟩ := bind_eq_ok.mp h
    cases h
    exact ⟨reads_of_checkExpr hvalue, fun _ hx ↦ hx⟩
  | .expr value, σ, σ', h, _ => by
    obtain ⟨_, hvalue, h⟩ := bind_eq_ok.mp h
    cases h
    exact ⟨reads_of_checkExpr hvalue, fun _ hx ↦ hx⟩
  | .ifElse condition body orelse, σ, σ', h, hplain => by
    obtain ⟨_, hcondition, h⟩ := bind_eq_ok.mp h
    obtain ⟨_, hbody, h⟩ := bind_eq_ok.mp h
    obtain ⟨_, horelse, h⟩ := bind_eq_ok.mp h
    cases h
    have hscoped := scoped_of_checkBlock horelse hplain.2
    exact ⟨⟨reads_of_checkExpr hcondition, scoped_of_checkBlock hbody hplain.1, hscoped⟩,
      fun _ hx ↦ hx⟩
  | .whileLoop condition body, σ, σ', h, hplain => by
    obtain ⟨_, hcondition, h⟩ := bind_eq_ok.mp h
    obtain ⟨_, hbody, h⟩ := bind_eq_ok.mp h
    cases h
    exact ⟨⟨reads_of_checkExpr hcondition, scoped_of_checkBlock hbody hplain⟩, fun _ hx ↦ hx⟩
  | .forRange name start stop body, σ, σ', h, hplain => by
    obtain ⟨_, hstart, h⟩ := bind_eq_ok.mp h
    obtain ⟨_, hstop, h⟩ := bind_eq_ok.mp h
    obtain ⟨_, hbody, h⟩ := bind_eq_ok.mp h
    cases h
    exact ⟨⟨hplain.1, reads_of_checkExpr hstart, reads_of_checkExpr hstop,
      blockScoped_mono (fun _ ↦ mem_visible_declare) (scoped_of_checkBlock hbody hplain.2)⟩,
      fun _ hx ↦ hx⟩
  | .define routine, σ, σ', h, hplain => by
    rw [checkStmt] at h
    split at h
    · cases h
    · next hi =>
      split at h
      · cases h
      · obtain ⟨_, hroutine, h⟩ := bind_eq_ok.mp h
        cases h
        have hscoped := scoped_of_checkRoutine hroutine hplain
        exact ⟨⟨eq_false_of_ne_true hi, hscoped⟩, fun _ hx ↦ hx⟩
  | .defineClass definition, σ, σ', h, hplain => by
    rw [checkStmt] at h
    split at h
    · cases h
    · next hi =>
      split at h
      · cases h
      · obtain ⟨_, hsignatures, h⟩ := bind_eq_ok.mp h
        obtain ⟨_, hclass, h⟩ := bind_eq_ok.mp h
        cases h
        have hapart := apart_of_nodup (apart_of_checkSignatures hsignatures).2
        have hscoped := scoped_of_checkClass hclass hplain hapart
        exact ⟨⟨eq_false_of_ne_true hi, hscoped⟩, fun _ hx ↦ hx⟩
  | .return none, σ, σ', h, _ => by
    rw [checkStmt] at h
    split at h
    · next hi =>
      cases h
      exact ⟨hi, fun _ hx ↦ hx⟩
    · cases h
  | .return (some value), σ, σ', h, _ => by
    rw [checkStmt] at h
    split at h
    · next hi =>
      obtain ⟨_, hvalue, h⟩ := bind_eq_ok.mp h
      cases h
      exact ⟨⟨hi, reads_of_checkExpr hvalue⟩, fun _ hx ↦ hx⟩
    · cases h
  | .pass, σ, σ', h, _ => by
    cases h
    exact ⟨trivial, fun _ hx ↦ hx⟩

theorem scoped_of_checkBlock {i : Bool} :
    ∀ {block : List Stmt} {σ σ' : Scope}, checkBlock i σ block = .ok σ' →
      BlockBindsPlainly block → BlockScoped i (· ∈ σ.visible) block
  | [], _, _, _, _ => trivial
  | _ :: _, _, _, h, hplain => by
    obtain ⟨σ₁, hfirst, hrest⟩ := bind_eq_ok.mp h
    obtain ⟨hs, hvisible⟩ := scoped_of_checkStmt hfirst hplain.1
    exact ⟨hs, blockScoped_mono hvisible (scoped_of_checkBlock hrest hplain.2)⟩

theorem scoped_of_checkRoutine {σ : Scope} {u : Unit} :
    ∀ {r : Routine (List Stmt)}, checkRoutine σ r = .ok u → RoutineBindsPlainly r →
      RoutineScoped (· ∈ σ.visible) r
  | ⟨_, params, body⟩, h, hplain => by
    obtain ⟨_, hbody, _⟩ := bind_eq_ok.mp h
    exact ⟨hplain.1,
      blockScoped_mono (fun _ ↦ mem_visible_enter) (scoped_of_checkBlock hbody hplain.2)⟩

theorem scoped_of_checkMethods {σ : Scope} {u : Unit} :
    ∀ {ms : List (Routine (List Stmt))}, checkMethods σ ms = .ok u → MethodsBindPlainly ms →
      MethodsScoped (· ∈ σ.visible) ms
  | [], _, _ => trivial
  | _ :: _, h, hplain => by
    obtain ⟨_, hfirst, hrest⟩ := bind_eq_ok.mp h
    exact ⟨scoped_of_checkRoutine hfirst hplain.1, scoped_of_checkMethods hrest hplain.2⟩

theorem scoped_of_checkClass {σ : Scope} {u : Unit} :
    ∀ {c : Class (List Stmt)}, checkClass σ c = .ok u → ClassBindsPlainly c →
      Apart Routine.name c.methods → ClassScoped (· ∈ σ.visible) c
  | ⟨_, _⟩, h, hplain, hapart => ⟨hplain.1, hapart, scoped_of_checkMethods h hplain.2⟩

end

/-! ### Callables -/

/-- From `σ` to `σ'` all callables are kept, and the given names, which are different, have been
added. -/
structure Registers (σ σ' : Scope) (names : List String) : Prop where
  kept : ∀ n, σ.callables.has n = true → σ'.callables.has n = true
  fresh : ∀ n ∈ names, σ.callables.has n = false
  known : ∀ n ∈ names, σ'.callables.has n = true
  nodup : names.Nodup

namespace Registers

variable {σ σ' σ'' : Scope} {names more : List String}

theorem refl : Registers σ σ [] :=
  ⟨fun _ h ↦ h, by simp, by simp, List.nodup_nil⟩

theorem of_callables_eq {σ₁ σ₂ : Scope} (h : Registers σ σ' names)
    (hstart : σ₁.callables = σ.callables) (hend : σ₂.callables = σ'.callables) :
    Registers σ₁ σ₂ names := by
  obtain ⟨hkept, hfresh, hknown, hnodup⟩ := h
  rw [← hstart] at hkept hfresh
  rw [← hend] at hkept hknown
  exact ⟨hkept, hfresh, hknown, hnodup⟩

theorem trans (h : Registers σ σ' names) (h' : Registers σ' σ'' more) :
    Registers σ σ'' (names ++ more) := by
  have hnew : ∀ n ∈ more, σ.callables.has n = false := by
    intro n hn
    rw [← Bool.not_eq_true]
    intro hhas
    have hfresh := h'.fresh n hn
    rw [h.kept n hhas] at hfresh
    cases hfresh
  refine ⟨fun n hn ↦ h'.kept n (h.kept n hn), fun n hn ↦ ?_, fun n hn ↦ ?_, ?_⟩
  · exact (List.mem_append.mp hn).elim (h.fresh n) (hnew n)
  · exact (List.mem_append.mp hn).elim (fun hn ↦ h'.kept n (h.known n hn)) (h'.known n)
  · refine List.nodup_append.mpr ⟨h.nodup, h'.nodup, fun a ha b hb hab ↦ ?_⟩
    subst hab
    have hfresh := h'.fresh a hb
    rw [h.known a ha] at hfresh
    cases hfresh

/-- Further callables do not matter. -/
theorem nil (h : Registers σ σ' names) : Registers σ σ' [] :=
  ⟨h.kept, by simp, by simp, List.nodup_nil⟩

theorem register (σ : Scope) {name : String} {arity : Nat} (h : ¬σ.callables.has name = true) :
    Registers σ (σ.register name arity) [name] := by
  refine ⟨fun n hn ↦ ?_, fun n hn ↦ ?_, fun n hn ↦ ?_, List.nodup_singleton name⟩
  · rw [Scope.register, Bindings.has, Bindings.get?_set]
    split
    · rfl
    · exact hn
  · rw [List.mem_singleton.mp hn, eq_false_of_ne_true h]
  · rw [List.mem_singleton.mp hn, Scope.register, Bindings.has, Bindings.get?_set_self]
    rfl

end Registers

/-- The callables behind a block are those before it with the functions and classes it defines. -/
def Defines (σ σ' : Scope) (defined : List (Routine Block) × List (Class Block)) : Prop :=
  Registers σ σ' (defined.1.map Routine.name) ∧ Registers σ σ' (defined.2.map Class.name)

theorem Defines.append {σ σ₁ σ' : Scope} {a b : List (Routine Block) × List (Class Block)}
    (ha : Defines σ σ₁ a) (hb : Defines σ₁ σ' b) : Defines σ σ' (a.1 ++ b.1, a.2 ++ b.2) := by
  refine ⟨?_, ?_⟩
  · simpa only [List.map_append] using ha.1.trans hb.1
  · simpa only [List.map_append] using ha.2.trans hb.2

theorem Defines.of_callables_eq {σ σ' σ₁ σ₂ : Scope}
    {a : List (Routine Block) × List (Class Block)} (h : Defines σ σ' a)
    (hstart : σ₁.callables = σ.callables) (hend : σ₂.callables = σ'.callables) :
    Defines σ₁ σ₂ a :=
  ⟨h.1.of_callables_eq hstart hend, h.2.of_callables_eq hstart hend⟩

theorem defines_refl {σ : Scope} : Defines σ σ ([], []) :=
  ⟨.refl, .refl⟩

mutual

theorem defines_of_checkStmt {i : Bool} :
    ∀ {s : Stmt} {σ σ' : Scope}, checkStmt i σ s = .ok σ' → Defines σ σ' (definitionsOfStmt s)
  | .assign _ _, σ, σ', h => by
    obtain ⟨_, _, h⟩ := bind_eq_ok.mp h
    cases h
    exact defines_refl.of_callables_eq rfl rfl
  | .assignIndex _ _ _, σ, σ', h => by
    obtain ⟨_, _, h⟩ := bind_eq_ok.mp h
    obtain ⟨_, _, h⟩ := bind_eq_ok.mp h
    obtain ⟨_, _, h⟩ := bind_eq_ok.mp h
    cases h
    exact defines_refl
  | .assignAttribute _ _ _, σ, σ', h => by
    obtain ⟨_, _, h⟩ := bind_eq_ok.mp h
    obtain ⟨_, _, h⟩ := bind_eq_ok.mp h
    cases h
    exact defines_refl
  | .print _, σ, σ', h => by
    obtain ⟨_, _, h⟩ := bind_eq_ok.mp h
    cases h
    exact defines_refl
  | .expr _, σ, σ', h => by
    obtain ⟨_, _, h⟩ := bind_eq_ok.mp h
    cases h
    exact defines_refl
  | .ifElse _ _ _, σ, σ', h => by
    obtain ⟨_, _, h⟩ := bind_eq_ok.mp h
    obtain ⟨σ₁, hbody, h⟩ := bind_eq_ok.mp h
    obtain ⟨σ₂, horelse, h⟩ := bind_eq_ok.mp h
    cases h
    rw [definitionsOfStmt]
    exact ((defines_of_checkBlock hbody).of_callables_eq rfl rfl).append
      ((defines_of_checkBlock horelse).of_callables_eq rfl rfl)
  | .whileLoop _ _, σ, σ', h => by
    obtain ⟨_, _, h⟩ := bind_eq_ok.mp h
    obtain ⟨_, hbody, h⟩ := bind_eq_ok.mp h
    cases h
    exact (defines_of_checkBlock hbody).of_callables_eq rfl rfl
  | .forRange _ _ _ _, σ, σ', h => by
    obtain ⟨_, _, h⟩ := bind_eq_ok.mp h
    obtain ⟨_, _, h⟩ := bind_eq_ok.mp h
    obtain ⟨_, hbody, h⟩ := bind_eq_ok.mp h
    cases h
    exact (defines_of_checkBlock hbody).of_callables_eq rfl rfl
  | .define routine, σ, σ', h => by
    rw [checkStmt] at h
    split at h
    · cases h
    · split at h
      · cases h
      · next hfresh =>
        obtain ⟨_, _, h⟩ := bind_eq_ok.mp h
        cases h
        exact ⟨.register σ hfresh, (Registers.register σ hfresh).nil⟩
  | .defineClass definition, σ, σ', h => by
    rw [checkStmt] at h
    split at h
    · cases h
    · split at h
      · cases h
      · next hfresh =>
        obtain ⟨_, _, h⟩ := bind_eq_ok.mp h
        obtain ⟨_, _, h⟩ := bind_eq_ok.mp h
        cases h
        exact ⟨(Registers.register σ hfresh).nil, .register σ hfresh⟩
  | .return none, σ, σ', h => by
    rw [checkStmt] at h
    split at h
    · cases h
      exact defines_refl
    · cases h
  | .return (some _), σ, σ', h => by
    rw [checkStmt] at h
    split at h
    · obtain ⟨_, _, h⟩ := bind_eq_ok.mp h
      cases h
      exact defines_refl
    · cases h
  | .pass, σ, σ', h => by
    cases h
    exact defines_refl

theorem defines_of_checkBlock {i : Bool} :
    ∀ {block : List Stmt} {σ σ' : Scope}, checkBlock i σ block = .ok σ' →
      Defines σ σ' (definitions block)
  | [], σ, σ', h => by
    cases h
    exact defines_refl
  | _ :: _, σ, σ', h => by
    obtain ⟨σ₁, hfirst, hrest⟩ := bind_eq_ok.mp h
    exact (defines_of_checkStmt hfirst).append (defines_of_checkBlock hrest)

end

end Scope

/-- A program that is read from a source text and accepted is well formed. -/
theorem wellFormed_of_analyze {source : String} {program : Block}
    (h : analyze source = .ok program) : WellFormed program := by
  obtain ⟨read, hread, h⟩ := bind_eq_ok.mp h
  obtain ⟨u, hscopes, h⟩ := bind_eq_ok.mp h
  cases h
  obtain ⟨σ, hblock, _⟩ := bind_eq_ok.mp (mapError_eq_ok.mp hscopes)
  have hdefines := Scope.defines_of_checkBlock hblock
  refine ⟨?_, Scope.apart_of_nodup hdefines.1.nodup, Scope.apart_of_nodup hdefines.2.nodup⟩
  refine blockScoped_mono (fun x hx ↦ ?_)
    (Scope.scoped_of_checkBlock hblock (bindsPlainly_of_parse hread))
  exact List.not_mem_nil hx

end Offside
