import Offside.Proofs.Reading.Yields
import Offside.Proofs.Token.Lines

/-!
All names that an accepted program binds are plain: `bindsPlainly_of_parse`. Identifiers are words,
words do not begin with `%`, and a reading takes every name from an identifier.
-/

set_option autoImplicit false
set_option relaxedAutoImplicit false

namespace Offside

/-! ### Identifiers are words -/

theorem Token.isPlain_of_layout {t : Token} (h : t.isOrdinary = false) : t.IsPlain := by
  rintro name rfl
  cases h

/-- Names begin with a letter or an underscore. -/
theorem Token.WrittenAs.isPlain {t : Token} {cs : List Char} (h : t.WrittenAs cs) : t.IsPlain := by
  rintro name rfl
  obtain ⟨⟨hstart, -⟩, -⟩ := h
  obtain ⟨c, rest, hname, hc⟩ := Source.Begins.exists_cons hstart
  refine ⟨c, rest, hname, ?_⟩
  rintro rfl
  revert hc
  decide

namespace Layout

theorem lineTokens_isPlain {line : Nat} {blocks kept : List Nat} {text : List Char}
    {ts : List PlacedToken} (h : lineTokens line blocks text = .ok (ts, kept)) :
    ∀ t ∈ ts, t.token.IsPlain := by
  have hreads := lineTokens_reads line blocks text
  rw [h] at hreads
  cases hreads with
  | bare hbare => exact nofun
  | code hcode htab layout _ hadjust pieces hcovers =>
    obtain ⟨left, hmunches, -⟩ := hcovers
    refine List.forall_mem_append.mpr ⟨List.forall_mem_append.mpr ⟨fun t ht ↦ ?_, fun t ht ↦ ?_⟩,
      List.forall_mem_singleton.mpr (Token.isPlain_of_layout rfl)⟩
    · obtain ⟨htoken | htoken, -⟩ := (adjust_isLayout hadjust).of_mem ht
      · exact Token.isPlain_of_layout (htoken ▸ rfl)
      · exact Token.isPlain_of_layout (htoken ▸ rfl)
    · obtain ⟨slice, hwritten⟩ := hmunches.exists_writtenAs ht
      exact hwritten.isPlain

theorem linesTokens_isPlain {texts : List (List Char)} :
    ∀ {line : Nat} {blocks : List Nat} {ts : List PlacedToken},
      linesTokens line blocks texts = .ok ts → ∀ t ∈ ts, t.token.IsPlain := by
  induction texts with
  | nil =>
    intro line blocks ts h t ht
    cases h
    rcases List.mem_append.mp ht with ht | ht
    · obtain ⟨_, -, rfl⟩ := List.mem_map.mp ht
      exact Token.isPlain_of_layout rfl
    · rw [List.mem_singleton.mp ht]
      exact Token.isPlain_of_layout rfl
  | cons text texts ih =>
    intro line blocks ts h
    rw [linesTokens] at h
    obtain ⟨⟨first, inner⟩, hline, h⟩ := bind_eq_ok.mp h
    obtain ⟨rest, hrest, h⟩ := bind_eq_ok.mp h
    cases h
    intro t ht
    exact (List.mem_append.mp ht).elim (lineTokens_isPlain hline t) (ih hrest t)

end Layout

/-! ### Readings take names from identifiers -/

/-- An expression that is no variable, or one with a plain name. -/
def Expr.NamedPlainly (e : Expr) : Prop :=
  ∀ name, e = .variable name → Plain name

namespace Reading

theorem yields_chainOnto {op? : Token → Option ArithOp} {operand : Reading Expr}
    (hoperand : Yields operand Expr.NamedPlainly) (bound : Nat) :
    ∀ {left : Expr}, left.NamedPlainly →
      Yields (chainOnto op? operand left bound) Expr.NamedPlainly := by
  induction bound with
  | zero => exact fun hleft ↦ yields_pure hleft
  | succ bound ih =>
    intro left hleft
    refine yields_current.bind fun t _ ↦ ?_
    split
    · refine yields_advance.then (hoperand.bind fun right _ ↦ ih ?_)
      intro name hname
      cases hname
    · exact yields_pure hleft

theorem yields_chain {op? : Token → Option ArithOp} {operand : Reading Expr}
    (hoperand : Yields operand Expr.NamedPlainly) (bound : Nat) :
    Yields (chain bound op? operand) Expr.NamedPlainly :=
  hoperand.bind fun _ hfirst ↦ yields_chainOnto hoperand bound hfirst

theorem yields_expressionOver {operand : Reading Expr}
    (hoperand : Yields operand Expr.NamedPlainly) (bound : Nat) :
    Yields (expressionOver bound operand) Expr.NamedPlainly := by
  have hsum : Yields (chain bound sumOp? (chain bound productOp? operand)) Expr.NamedPlainly :=
    yields_chain (yields_chain hoperand bound) bound
  refine hsum.bind fun left hleft ↦ yields_current.bind fun t _ ↦ ?_
  split
  · exact yields_pure hleft
  · refine yields_advance.then (hsum.bind fun right _ ↦ yields_current.bind fun next _ ↦ ?_)
    refine yields_ite yields_throw (yields_pure fun name hname ↦ ?_)
    cases hname

theorem yields_endOfAccess {access : Expr} (h : access.NamedPlainly) :
    Yields (endOfAccess access) Expr.NamedPlainly :=
  yields_current.bind fun _ _ ↦ yields_ite yields_throw (yields_pure h)

theorem yields_accessOf {expression : Reading Expr}
    (hexpression : Yields expression Expr.NamedPlainly) (bound : Nat) {name : String}
    (hname : Plain name) : Yields (accessOf bound expression name) Expr.NamedPlainly := by
  refine yields_take?.bind fun _ _ ↦ yields_ite ?_ ?_
  · refine (yields_itemsUpTo hexpression bound _).bind fun args _ ↦ yields_endOfAccess ?_
    intro name hname
    cases hname
  · refine yields_take?.bind fun _ _ ↦ yields_ite ?_ ?_
    · refine hexpression.bind fun position _ ↦ yields_takeMark.then (yields_endOfAccess ?_)
      intro name hname
      cases hname
    · refine yields_take?.bind fun _ _ ↦ yields_ite ?_ (yields_pure ?_)
      · refine yields_identifier.bind fun member _ ↦ yields_take?.bind fun _ _ ↦ yields_ite ?_ ?_
        · refine (yields_itemsUpTo hexpression bound _).bind fun args _ ↦ yields_endOfAccess ?_
          intro name hname
          cases hname
        · refine yields_endOfAccess ?_
          intro name hname
          cases hname
      · intro other hother
        cases hother
        exact hname

theorem yields_operand (bound depth : Nat) :
    Yields (operand bound depth) Expr.NamedPlainly := by
  induction depth with
  | zero => exact yields_unexpected
  | succ depth ih =>
    have hexpression := yields_expressionOver ih bound
    refine yields_current.bind fun t ht ↦ ?_
    obtain ⟨token, line, column⟩ := t
    cases token with
    | number value => exact yields_advance.then (yields_pure fun name hname ↦ by cases hname)
    | keyword word =>
      cases word with
      | trueWord | falseWord =>
        exact yields_advance.then (yields_pure fun name hname ↦ by cases hname)
      | _ => exact yields_unexpected
    | arith op =>
      cases op with
      | sub =>
        refine yields_advance.then (ih.bind fun e _ ↦ yields_pure fun name hname ↦ ?_)
        cases hname
      | _ => exact yields_unexpected
    | identifier name =>
      exact yields_advance.then (yields_accessOf hexpression bound (ht name rfl))
    | punctuation mark =>
      cases mark with
      | leftBracket =>
        refine yields_advance.then ((yields_itemsUpTo hexpression bound _).bind fun items _ ↦ ?_)
        exact yields_pure fun name hname ↦ by cases hname
      | leftParen =>
        refine yields_advance.then (hexpression.bind fun inner hinner ↦ ?_)
        exact yields_takeMark.then (yields_pure hinner)
      | _ => exact yields_unexpected
    | _ => exact yields_unexpected

theorem yields_expression (bound : Nat) : Yields (expression bound) Expr.NamedPlainly :=
  yields_expressionOver (yields_operand bound (bound + 1)) bound

section

variable {statement : Reading Stmt} (hstatement : Yields statement Stmt.BindsPlainly)

include hstatement

/-- An indented block of statements. -/
theorem yields_block (bound : Nat) :
    Yields (indented bound (return [← statement])) BlockBindsPlainly := by
  have hline : Yields (return [← statement]) fun xs ↦ ∀ s ∈ xs, s.BindsPlainly := by
    refine hstatement.bind fun s hs ↦ yields_pure ?_
    simpa using hs
  exact (yields_indented hline bound).mono fun _ ↦ blockBindsPlainly_iff.mpr

theorem yields_routine (bound : Nat) :
    Yields (routine bound statement) RoutineBindsPlainly := by
  refine yields_takeWord.then (yields_identifier.bind fun name _ ↦ yields_takeMark.then ?_)
  refine (yields_itemsUpTo yields_identifier bound _).bind fun params hparams ↦ ?_
  refine yields_takeMark.then ((yields_block hstatement bound).bind fun body hbody ↦ ?_)
  exact yields_pure ⟨hparams, hbody⟩

theorem yields_member (bound : Nat) :
    Yields (member bound statement) fun ms ↦ ∀ m ∈ ms, RoutineBindsPlainly m := by
  refine yields_current.bind fun t _ ↦ ?_
  split
  · refine (yields_routine hstatement bound).bind fun m hm ↦ yields_pure ?_
    simpa using hm
  · exact yields_advance.then (yields_take.then (yields_pure (by simp)))
  · exact yields_unexpected

end

theorem yields_simpleLine (bound : Nat) : Yields (simpleLine bound) Stmt.BindsPlainly := by
  refine yields_current.bind fun t _ ↦ (yields_expression bound).bind fun target htarget ↦ ?_
  refine yields_take?.bind fun _ _ ↦ yields_ite ?_ (yields_take.then (yields_pure trivial))
  refine (yields_expression bound).bind fun value _ ↦ yields_take.then ?_
  cases target with
  | «variable» name => exact yields_pure (htarget name rfl)
  | index name position => exact yields_pure trivial
  | member object name => exact yields_pure trivial
  | _ => exact yields_throw

theorem yields_rangeArgument (bound : Nat) : Yields (rangeArgument bound) fun _ ↦ True := by
  refine yields_current.bind fun t _ ↦ yields_identifier.bind fun callee _ ↦ ?_
  refine yields_ite yields_throw (yields_takeMark.then ?_)
  refine (yields_itemsUpTo (yields_expression bound) bound _).bind fun args _ ↦ ?_
  split
  · exact yields_pure trivial
  · exact yields_throw

theorem yields_statement (bound depth : Nat) :
    Yields (statement bound depth) Stmt.BindsPlainly := by
  induction depth with
  | zero => exact yields_unexpected
  | succ depth ih =>
    have hblock := yields_block ih bound
    have hexpression := yields_expression bound
    refine yields_current.bind fun t _ ↦ ?_
    split
    · refine yields_advance.then (yields_takeMark.then (hexpression.bind fun value _ ↦ ?_))
      exact yields_takeMark.then (yields_take.then (yields_pure trivial))
    · exact (yields_routine ih bound).bind fun r hr ↦ yields_pure hr
    · refine yields_advance.then (yields_identifier.bind fun name hname ↦ yields_takeMark.then ?_)
      refine (yields_indented (yields_member ih bound) bound).bind fun methods hmethods ↦ ?_
      exact yields_pure ⟨hname, methodsBindPlainly_iff.mpr hmethods⟩
    · refine yields_advance.then (yields_take?.bind fun _ _ ↦ yields_ite (yields_pure trivial) ?_)
      exact hexpression.bind fun value _ ↦ yields_take.then (yields_pure trivial)
    · refine yields_advance.then (hexpression.bind fun condition _ ↦ yields_takeMark.then ?_)
      refine hblock.bind fun body hbody ↦ yields_take?.bind fun _ _ ↦ yields_ite ?_ ?_
      · refine yields_takeMark.then (hblock.bind fun orelse horelse ↦ ?_)
        exact yields_pure ⟨hbody, horelse⟩
      · exact yields_pure ⟨hbody, trivial⟩
    · refine yields_advance.then (hexpression.bind fun condition _ ↦ yields_takeMark.then ?_)
      exact hblock.bind fun body hbody ↦ yields_pure hbody
    · refine yields_advance.then (yields_identifier.bind fun name hname ↦ yields_takeWord.then ?_)
      refine (yields_rangeArgument bound).bind fun stop _ ↦ yields_takeMark.then ?_
      exact hblock.bind fun body hbody ↦ yields_pure ⟨hname, hbody⟩
    · exact yields_advance.then (yields_take.then (yields_pure trivial))
    · exact yields_simpleLine bound

theorem yields_program (bound : Nat) : Yields (program bound) BlockBindsPlainly := by
  have hline : Yields (return [← statement bound (bound + 1)])
      fun xs ↦ ∀ s ∈ xs, s.BindsPlainly := by
    refine (yields_statement bound (bound + 1)).bind fun s hs ↦ yields_pure ?_
    simpa using hs
  exact (yields_linesUpTo hline bound).mono fun _ ↦ blockBindsPlainly_iff.mpr

end Reading

theorem withEnd_isPlain {ts : List PlacedToken} (hts : ∀ t ∈ ts, t.token.IsPlain) :
    ∀ t ∈ withEnd ts, t.token.IsPlain := by
  intro t ht
  rw [withEnd] at ht
  split at ht
  · rw [List.mem_singleton.mp ht]
    exact Token.isPlain_of_layout rfl
  · split at ht
    · exact hts t ht
    · rcases List.mem_append.mp ht with ht | ht
      · exact hts t ht
      · rw [List.mem_singleton.mp ht]
        exact Token.isPlain_of_layout rfl

/-- All names that a program binds are plain, if it was read from a source text. -/
theorem bindsPlainly_of_parse {source : String} {program : Block}
    (h : parse source = .ok program) : BlockBindsPlainly program := by
  obtain ⟨tokens, htokens, h⟩ := bind_eq_ok.mp h
  obtain ⟨⟨read, rest⟩, hrun, hread⟩ := map_eq_ok.mp (mapError_eq_ok.mp h)
  have hplain := withEnd_isPlain (Layout.linesTokens_isPlain (mapError_eq_ok.mp htokens))
  cases hread
  exact (Reading.yields_program tokens.length _ hplain _ _ hrun).1

end Offside
