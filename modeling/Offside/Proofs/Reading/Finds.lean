import Offside.Proofs.Grammar
import Offside.Reading.Stmt

/-!
What is read is derived. `Finds x G` says that whatever `x` yields, it has taken tokens that derive
it in `G` from the front, none of which is the end of the input. It has one rule for each of the
parts that readings are put together from, whatever their bounds are, and from these it follows for
every reading of the language.
-/

set_option autoImplicit false
set_option relaxedAutoImplicit false

namespace Offside.Reading

open Grammar

/-- The token at the front; behind the last one the input has ended. -/
def next (ts : List PlacedToken) : Token :=
  (ts.headD ⟨.endOfInput, 0, 0⟩).token

/-- A token that may be at the front is looked at, and taken if it is. -/
theorem take?_bind {α : Type} (token : Token) (f : Bool → Reading α) :
    (take? token >>= f) =
      current >>= fun t ↦ if t.token = token then advance >>= fun _ ↦ f true else f false := by
  simp only [take?, at?, bind_assoc, pure_bind]
  refine bind_congr fun t ↦ ?_
  by_cases h : t.token = token <;> simp [h]

section

variable {α β : Type} {P : List Token → β → Prop} {G H : List Token → α → Prop}

/-- A reading whose results are derived in `G` from what it takes, at a front with `S`. -/
def FindsAt (S : Token → Prop) (x : Reading α) (G : List Token → α → Prop) : Prop :=
  ∀ ts a rest, S (next ts) → x ts = .ok (a, rest) → ∃ taken, ts = taken ++ rest ∧
    (∀ t ∈ taken, t.token ≠ .endOfInput) ∧ G (taken.map PlacedToken.token) a

/-- A reading whose results are derived in `G` from what it takes. -/
abbrev Finds (x : Reading α) (G : List Token → α → Prop) : Prop :=
  FindsAt (fun _ ↦ True) x G

/-! ### Rules -/

theorem Finds.at {x : Reading α} (h : Finds x G) (S : Token → Prop) : FindsAt S x G :=
  fun ts a rest _ hx ↦ h ts a rest trivial hx

theorem Finds.mono {x : Reading α} (h : Finds x G) (hGH : ∀ text a, G text a → H text a) :
    Finds x H := by
  intro ts a rest hS hx
  obtain ⟨taken, hts, hend, ha⟩ := h ts a rest hS hx
  exact ⟨taken, hts, hend, hGH _ a ha⟩

theorem finds_pure {a : α} (h : G [] a) : Finds (pure a) G := by
  intro ts b rest _ hx
  cases hx
  exact ⟨[], rfl, fun _ ht ↦ absurd ht List.not_mem_nil, h⟩

theorem findsAt_throw {S : Token → Prop} {e : ParseError} : FindsAt S (throw e : Reading α) G := by
  intro ts a rest _ hx
  cases hx

theorem findsAt_unexpected {S : Token → Prop} {expected : Expected} :
    FindsAt S (unexpected expected : Reading α) G := by
  intro ts a rest _ hx
  cases hx

/-- What the second reading finds is derived together with what the first has found. -/
theorem Finds.bind {x : Reading β} {f : β → Reading α} (hx : Finds x P)
    (hf : ∀ first b, P first b → Finds (f b) fun rest a ↦ G (first ++ rest) a) :
    Finds (x >>= f) G := by
  intro ts a rest _ h
  obtain ⟨b, us, hxts, hfus⟩ := run_bind_eq_ok.mp h
  obtain ⟨first, rfl, hfirst, hb⟩ := hx ts b us trivial hxts
  obtain ⟨second, rfl, hsecond, ha⟩ := hf _ b hb us a rest trivial hfus
  refine ⟨first ++ second, (List.append_assoc ..).symm, fun t ht ↦ ?_, by rwa [List.map_append]⟩
  exact (List.mem_append.mp ht).elim (hfirst t) (hsecond t)

theorem finds_current_bind {f : PlacedToken → Reading α}
    (hf : ∀ t, FindsAt (· = t.token) (f t) G) : Finds (current >>= f) G :=
  fun ts a rest _ hx ↦ hf (ts.headD ⟨.endOfInput, 0, 0⟩) ts a rest rfl hx

theorem findsAt_advance_bind {token : Token} {f : Unit → Reading α} (htoken : token ≠ .endOfInput)
    (hf : Finds (f ()) fun rest a ↦ G (token :: rest) a) :
    FindsAt (· = token) (advance >>= f) G := by
  intro ts a rest hnext hx
  subst hnext
  cases ts with
  | nil => exact absurd rfl htoken
  | cons t ts =>
    obtain ⟨taken, rfl, hend, ha⟩ := hf ts a rest trivial hx
    exact ⟨t :: taken, rfl, List.forall_mem_cons.mpr ⟨htoken, hend⟩, ha⟩

theorem finds_take?_bind {token : Token} {f : Bool → Reading α} (htoken : token ≠ .endOfInput)
    (htrue : Finds (f true) fun rest a ↦ G (token :: rest) a) (hfalse : Finds (f false) G) :
    Finds (take? token >>= f) G := by
  rw [take?_bind]
  refine finds_current_bind fun t ↦ ?_
  split
  · next h => exact h ▸ findsAt_advance_bind (h ▸ htoken) (h ▸ htrue)
  · exact hfalse.at _

theorem finds_take {token : Token} (htoken : token ≠ .endOfInput) :
    Finds (take token) fun text _ ↦ text = [token] :=
  finds_take?_bind htoken (finds_pure rfl) findsAt_unexpected

theorem finds_take_bind {token : Token} {f : Unit → Reading α} (htoken : token ≠ .endOfInput)
    (hf : Finds (f ()) fun rest a ↦ G (token :: rest) a) : Finds (take token >>= f) G := by
  refine (finds_take htoken).bind fun first _ hfirst ↦ ?_
  subst hfirst
  exact hf

theorem finds_identifier : Finds identifier Name := by
  refine finds_current_bind fun t ↦ ?_
  split
  · next name hname =>
    rw [hname]
    exact findsAt_advance_bind nofun (finds_pure (.mk name))
  · exact findsAt_unexpected

end

/-! ### Lists and blocks -/

section

variable {α β : Type} {P : List Token → α → Prop} {item : Reading α} {line : Reading (List β)}
  {contents : α → List β}

theorem finds_itemsBetweenCommas (hitem : Finds item P) (bound : Nat) :
    Finds (itemsBetweenCommas item bound) (Separated P) := by
  induction bound with
  | zero =>
    refine hitem.bind fun text a ha ↦ finds_pure ?_
    rw [List.append_nil]
    exact .one ha
  | succ bound ih =>
    refine hitem.bind fun first a ha ↦ finds_take?_bind nofun ?_ (finds_pure ?_)
    · exact ih.bind fun rest as has ↦ finds_pure (by
        rw [List.append_nil]
        exact .more ha has)
    · rw [List.append_nil]
      exact .one ha

theorem finds_itemsUpTo (hitem : Finds item P) (bound : Nat) (closing : Punctuation) :
    Finds (itemsUpTo bound closing item) fun text as ↦
      ∃ inner, text = inner ++ [.punctuation closing] ∧ Items P inner as := by
  refine finds_take?_bind nofun (finds_pure ⟨[], rfl, .none⟩) ?_
  refine (finds_itemsBetweenCommas hitem bound).bind fun inner as has ↦ ?_
  exact finds_take_bind nofun (finds_pure ⟨inner, rfl, .some has⟩)

/-- Lines whose contents are those of what they derive. -/
theorem finds_linesUpTo {closes : Token → Bool}
    (hline : Finds line fun text xs ↦ ∃ a, xs = contents a ∧ P text a) (bound : Nat) :
    Finds (linesUpTo closes line bound) fun text xs ↦
      ∃ as, xs = as.flatMap contents ∧ Lines P text as := by
  induction bound with
  | zero => exact finds_pure ⟨[], rfl, .nil⟩
  | succ bound ih =>
    refine finds_current_bind fun _ ↦ Finds.at ?_ _
    split
    · exact finds_pure ⟨[], rfl, .nil⟩
    · refine finds_take?_bind nofun (ih.mono ?_) ?_
      · rintro text xs ⟨as, hxs, has⟩
        exact ⟨as, hxs, .blank has⟩
      · refine hline.bind fun first xs hfirst ↦ ih.bind fun rest ys hrest ↦ finds_pure ?_
        obtain ⟨a, rfl, ha⟩ := hfirst
        obtain ⟨as, rfl, has⟩ := hrest
        rw [List.append_nil]
        exact ⟨a :: as, rfl, .line ha has⟩

theorem finds_indented (hline : Finds line fun text xs ↦ ∃ a, xs = contents a ∧ P text a)
    (bound : Nat) : Finds (indented bound line) fun text xs ↦
      ∃ as, xs = as.flatMap contents ∧ Indented P text as := by
  refine finds_take_bind nofun (finds_take_bind nofun ?_)
  refine (finds_linesUpTo hline bound).bind fun text xs hlines ↦ ?_
  obtain ⟨as, hxs, has⟩ := hlines
  exact finds_take_bind nofun (finds_pure ⟨as, hxs, .mk has⟩)

end

/-! ### Expressions -/

section

variable {P : List Token → Expr → Prop} {op? : Token → Option ArithOp} {operators : List ArithOp}
  {operand : Reading Expr}

theorem finds_chainOnto (hops : ∀ t op, op? t = some op ↔ t = .arith op ∧ op ∈ operators)
    (hoperand : Finds operand P) (bound : Nat) :
    ∀ {left : List Token} {a : Expr}, Chain operators P left a →
      Finds (chainOnto op? operand a bound) fun rest e ↦ Chain operators P (left ++ rest) e := by
  induction bound with
  | zero =>
    intro left a hleft
    exact finds_pure (by rwa [List.append_nil])
  | succ bound ih =>
    intro left a hleft
    refine finds_current_bind fun t ↦ ?_
    split
    · next op hop =>
      obtain ⟨htoken, hmem⟩ := (hops _ _).mp hop
      rw [htoken]
      refine findsAt_advance_bind nofun (hoperand.bind fun right b hb ↦ ?_)
      refine (ih (.more hleft hmem hb)).mono fun rest e he ↦ ?_
      rwa [List.append_assoc] at he
    · exact Finds.at (finds_pure (by rwa [List.append_nil])) _

theorem finds_chain (hops : ∀ t op, op? t = some op ↔ t = .arith op ∧ op ∈ operators)
    (hoperand : Finds operand P) (bound : Nat) :
    Finds (chain bound op? operand) (Chain operators P) :=
  hoperand.bind fun _ _ ha ↦ finds_chainOnto hops hoperand bound (.one ha)

theorem sumOp?_eq_some (t : Token) (op : ArithOp) :
    sumOp? t = some op ↔ t = .arith op ∧ op ∈ [ArithOp.add, .sub] := by
  unfold sumOp?
  split <;> cases op <;> simp_all

theorem productOp?_eq_some (t : Token) (op : ArithOp) :
    productOp? t = some op ↔ t = .arith op ∧ op ∈ [ArithOp.mul, .div] := by
  unfold productOp?
  split <;> cases op <;> simp_all

theorem compareOp?_eq_some {t : Token} {op : CompareOp} :
    compareOp? t = some op ↔ t = .compare op := by
  unfold compareOp?
  split <;> simp_all

theorem finds_expressionOver (hoperand : Finds operand P) (bound : Nat) :
    Finds (expressionOver bound operand) (ExpressionOver P) := by
  have hsum := finds_chain sumOp?_eq_some
    (finds_chain productOp?_eq_some hoperand bound) bound
  refine hsum.bind fun left a hleft ↦ finds_current_bind fun t ↦ ?_
  split
  · refine Finds.at (finds_pure ?_) _
    rw [List.append_nil]
    exact .sum hleft
  · next op hop =>
    rw [compareOp?_eq_some.mp hop]
    refine findsAt_advance_bind nofun (hsum.bind fun right b hright ↦ ?_)
    refine finds_current_bind fun t' ↦ ?_
    split
    · exact findsAt_throw
    · refine Finds.at (finds_pure ?_) _
      rw [List.append_nil]
      exact .compare op hleft hright

theorem finds_endOfAccess {G : List Token → Expr → Prop} {e : Expr} (h : G [] e) :
    Finds (endOfAccess e) G := by
  refine finds_current_bind fun t ↦ ?_
  split
  · exact findsAt_throw
  · exact Finds.at (finds_pure h) _

/-- What follows a name is derived together with the name. -/
theorem finds_accessOf {expression : Reading Expr} (hexpression : Finds expression Expression)
    (bound : Nat) (name : String) :
    Finds (accessOf bound expression name) fun rest e ↦
      Operand (.identifier name :: rest) e := by
  refine finds_take?_bind nofun ?_ (finds_take?_bind nofun ?_ (finds_take?_bind nofun ?_ ?_))
  · refine (finds_itemsUpTo hexpression bound _).bind fun text args hargs ↦ ?_
    obtain ⟨inner, rfl, hargs⟩ := hargs
    refine finds_endOfAccess ?_
    rw [List.append_nil]
    exact .call name hargs
  · refine hexpression.bind fun text position hposition ↦ finds_take_bind nofun ?_
    exact finds_endOfAccess (.index name hposition)
  · refine finds_identifier.bind fun text member hmember ↦ ?_
    cases hmember
    refine finds_take?_bind nofun ?_ (finds_endOfAccess (.member name member))
    refine (finds_itemsUpTo hexpression bound _).bind fun text args hargs ↦ ?_
    obtain ⟨inner, rfl, hargs⟩ := hargs
    refine finds_endOfAccess ?_
    rw [List.append_nil]
    exact .methodCall name member hargs
  · exact finds_pure (.variable name)

/-- An operand is derived, by induction on the levels of nesting. -/
theorem finds_operand (bound depth : Nat) : Finds (Reading.operand bound depth) Operand := by
  induction depth with
  | zero => exact findsAt_unexpected
  | succ depth ih =>
    have hexpression := finds_expressionOver ih bound
    refine finds_current_bind fun t ↦ ?_
    obtain ⟨token, line, column⟩ := t
    cases token with
    | number value => exact findsAt_advance_bind nofun (finds_pure (.number value))
    | keyword word =>
      cases word with
      | trueWord => exact findsAt_advance_bind nofun (finds_pure .true)
      | falseWord => exact findsAt_advance_bind nofun (finds_pure .false)
      | _ => exact findsAt_unexpected
    | arith op =>
      cases op with
      | sub =>
        refine findsAt_advance_bind nofun (ih.bind fun text e he ↦ finds_pure ?_)
        rw [List.append_nil]
        exact .negation he
      | _ => exact findsAt_unexpected
    | identifier name => exact findsAt_advance_bind nofun (finds_accessOf hexpression bound name)
    | punctuation mark =>
      cases mark with
      | leftBracket =>
        refine findsAt_advance_bind nofun ?_
        refine (finds_itemsUpTo hexpression bound _).bind fun text items hitems ↦ finds_pure ?_
        obtain ⟨inner, rfl, hitems⟩ := hitems
        rw [List.append_nil]
        exact .list hitems
      | leftParen =>
        refine findsAt_advance_bind nofun (hexpression.bind fun text e he ↦ ?_)
        exact finds_take_bind nofun (finds_pure (.parens he))
      | _ => exact findsAt_unexpected
    | _ => exact findsAt_unexpected

theorem finds_expression (bound : Nat) : Finds (expression bound) Expression :=
  finds_expressionOver (finds_operand bound _) bound

end

/-! ### Statements -/

section

variable {statement : Reading Stmt}

/-- A line that is a statement. -/
theorem finds_line (hstatement : Finds statement Statement) :
    Finds (return [← statement]) fun text xs ↦ ∃ st, xs = [st] ∧ Statement text st :=
  hstatement.bind fun text st hst ↦ finds_pure ⟨st, rfl, by rwa [List.append_nil]⟩

theorem finds_block (hstatement : Finds statement Statement) (bound : Nat) :
    Finds (indented bound (return [← statement])) (Indented Statement) := by
  refine (finds_indented (finds_line hstatement) bound).mono fun text xs hxs ↦ ?_
  obtain ⟨as, rfl, has⟩ := hxs
  rwa [List.flatMap_singleton']

theorem finds_routine (hstatement : Finds statement Statement) (bound : Nat) :
    Finds (routine bound statement) (RoutineOver Statement) := by
  refine finds_take_bind nofun (finds_identifier.bind fun text name hname ↦ ?_)
  cases hname
  refine finds_take_bind nofun ((finds_itemsUpTo finds_identifier bound _).bind
    fun text params hparams ↦ finds_take_bind nofun ?_)
  obtain ⟨parameters, rfl, hparams⟩ := hparams
  refine (finds_block hstatement bound).bind fun text body hbody ↦ finds_pure ?_
  rw [List.append_nil, List.append_assoc]
  exact .mk name hparams hbody

theorem finds_member (hstatement : Finds statement Statement) (bound : Nat) :
    Finds (member bound statement) fun text rs ↦
      ∃ rs', rs = id rs' ∧ MemberOver Statement text rs' := by
  refine finds_current_bind fun t ↦ ?_
  split
  · refine Finds.at ((finds_routine hstatement bound).bind fun text r hr ↦ finds_pure ?_) _
    rw [List.append_nil]
    exact ⟨[r], rfl, .method hr⟩
  · next ht =>
    rw [ht]
    exact findsAt_advance_bind nofun (finds_take_bind nofun (finds_pure ⟨[], rfl, .pass⟩))
  · exact findsAt_unexpected

theorem finds_rangeArgument (bound : Nat) : Finds (rangeArgument bound) fun text stop ↦
    ∃ inner, text = .identifier "range" :: .punctuation .leftParen :: inner ++
      [.punctuation .rightParen] ∧ Expression inner stop := by
  refine finds_current_bind fun t ↦ Finds.at (finds_identifier.bind fun text callee hcallee ↦ ?_) _
  cases hcallee
  split
  · exact findsAt_throw
  · next hrange =>
    obtain rfl : callee = "range" := by simpa using hrange
    refine finds_take_bind nofun ?_
    refine (finds_itemsUpTo (finds_expression bound) bound _).bind fun text args hargs ↦ ?_
    obtain ⟨inner, rfl, hargs⟩ := hargs
    split
    · next stop =>
      refine finds_pure ⟨inner, by simp, ?_⟩
      cases hargs with
      | some hargs =>
        cases hargs with
        | one hstop => exact hstop
        | more hfirst hrest => cases hrest
    · exact findsAt_throw

theorem finds_simpleLine (bound : Nat) : Finds (simpleLine bound) Statement := by
  refine finds_current_bind fun t ↦ Finds.at ?_ _
  refine (finds_expression bound).bind fun target e he ↦ finds_take?_bind nofun ?_ ?_
  · refine (finds_expression bound).bind fun text value hvalue ↦ finds_take_bind nofun ?_
    split
    · next st hst =>
      refine finds_pure ?_
      have htext : target ++ .punctuation .assign :: (text ++ .newline :: []) =
          target ++ .punctuation .assign :: text ++ [.newline] := by simp
      rw [htext]
      cases e with
      | «variable» name =>
        cases hst
        exact .assign name he hvalue
      | index name position =>
        cases hst
        exact .assignIndex name he hvalue
      | member object name =>
        cases hst
        exact .assignAttribute object name he hvalue
      | _ => cases hst
    · exact findsAt_throw
  · exact finds_take_bind nofun (finds_pure (.expr he))

/-- A statement is derived, by induction on the levels of nesting. -/
theorem finds_statement (bound depth : Nat) :
    Finds (Reading.statement bound depth) Statement := by
  induction depth with
  | zero => exact findsAt_unexpected
  | succ depth ih =>
    have hblock := finds_block ih bound
    rw [Reading.statement]
    refine finds_current_bind fun t ↦ ?_
    split
    · next ht =>
      rw [ht]
      refine findsAt_advance_bind nofun (finds_take_bind nofun ?_)
      refine (finds_expression bound).bind fun text value hvalue ↦ ?_
      exact finds_take_bind nofun (finds_take_bind nofun (finds_pure (.print hvalue)))
    · refine Finds.at ((finds_routine ih bound).bind fun text r hr ↦ finds_pure ?_) _
      rw [List.append_nil]
      exact .define hr
    · next ht =>
      rw [ht]
      refine findsAt_advance_bind nofun (finds_identifier.bind fun text name hname ↦ ?_)
      cases hname
      refine finds_take_bind nofun ?_
      refine (finds_indented (finds_member ih bound) bound).bind fun text ms hms ↦ finds_pure ?_
      obtain ⟨members, rfl, hmembers⟩ := hms
      rw [List.append_nil, List.flatMap_id]
      exact .defineClass name hmembers
    · next ht =>
      rw [ht]
      refine findsAt_advance_bind nofun (finds_take?_bind nofun (finds_pure .returnNone) ?_)
      refine (finds_expression bound).bind fun text value hvalue ↦ ?_
      exact finds_take_bind nofun (finds_pure (.returnSome hvalue))
    · next ht =>
      rw [ht]
      refine findsAt_advance_bind nofun ?_
      refine (finds_expression bound).bind fun test condition hcondition ↦ ?_
      refine finds_take_bind nofun (hblock.bind fun first body hbody ↦ ?_)
      refine finds_take?_bind nofun (finds_take_bind nofun ?_) (finds_pure ?_)
      · refine hblock.bind fun second orelse horelse ↦ finds_pure ?_
        have hif := Statement.ifElse hcondition hbody horelse
        simpa using hif
      · rw [List.append_nil]
        exact .ifThen hcondition hbody
    · next ht =>
      rw [ht]
      refine findsAt_advance_bind nofun ?_
      refine (finds_expression bound).bind fun test condition hcondition ↦ ?_
      refine finds_take_bind nofun (hblock.bind fun text body hbody ↦ finds_pure ?_)
      rw [List.append_nil]
      exact .whileLoop hcondition hbody
    · next ht =>
      rw [ht]
      refine findsAt_advance_bind nofun (finds_identifier.bind fun text name hname ↦ ?_)
      cases hname
      refine finds_take_bind nofun ((finds_rangeArgument bound).bind fun text stop hstop ↦ ?_)
      obtain ⟨inner, rfl, hstop⟩ := hstop
      refine finds_take_bind nofun (hblock.bind fun text body hbody ↦ finds_pure ?_)
      have hfor := Statement.forRange name hstop hbody
      simpa using hfor
    · next ht =>
      rw [ht]
      exact findsAt_advance_bind nofun (finds_take_bind nofun (finds_pure .pass))
    · exact (finds_simpleLine bound).at _

/-- A program is derived. -/
theorem finds_program (bound : Nat) : Finds (program bound) Program := by
  refine (finds_linesUpTo (finds_line (finds_statement bound _)) bound).mono fun text xs hxs ↦ ?_
  obtain ⟨as, rfl, has⟩ := hxs
  rwa [List.flatMap_singleton']

end

end Offside.Reading
