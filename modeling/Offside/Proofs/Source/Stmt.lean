import Offside.Proofs.Source.Layout

/-!
The tokens of a written statement derive it: `stmt_stands`. A statement is a line, or lines with
blocks below them, so its text always fills its level.
-/

set_option autoImplicit false
set_option relaxedAutoImplicit false

namespace Offside.Source

open Grammar (Expression Indented Lines MemberOver Operand Program RoutineOver Statement)

variable (gap : Nat) {l : Nat} {S : Char → Bool} {α : Type} {phrase : List Token → α → Prop}
variable {text first second header block : String} {ts us : List Token}

/-! ### Words of statements -/

namespace Lexes

theorem colon : Lexes S ":" [.punctuation .colon] :=
  (mark .colon nofun).free

/-- A keyword with a blank behind it. -/
theorem leading (k : Keyword) : Lexes S (k.spelling ++ " ") [.keyword k] :=
  (keyword k).upTo (blanks 1).free rfl

theorem inRange : Lexes S " in range("
    [.keyword .inWord, .identifier "range", .punctuation .leftParen] :=
  have hrange : IsName "range" := by decide
  (((blanks 1).before (leading .inWord)).before (name hrange)).upTo leftParen rfl

/-- The end of a line with a block below it. -/
theorem opening : Lexes S "):" [.punctuation .rightParen, .punctuation .colon] :=
  rightParen.before colon

end Lexes

/-! ### Texts of statements -/

/-- Lines of level `l` whose tokens derive a tree. -/
def Stands (phrase : List Token → α → Prop) (l : Nat) (text : String) (a : α) : Prop :=
  ∃ ts, phrase ts a ∧ Fills l text ts

/-- Lines of level `l`, if any, whose tokens derive trees one after another. -/
def StandTogether (phrase : List Token → α → Prop) (l : Nat) (text : String) (as : List α) : Prop :=
  ∃ ts, Lines phrase ts as ∧ Extends l text ts ∧ (as ≠ [] → Fills l text ts)

theorem standTogether_nil : StandTogether phrase l "" [] :=
  ⟨[], .nil, extends_empty, fun h ↦ absurd rfl h⟩

theorem Stands.cons {a : α} {as : List α} (hfirst : Stands phrase l first a)
    (hsecond : StandTogether phrase l second as) :
    StandTogether phrase l (first ++ second) (a :: as) := by
  obtain ⟨ts, hts, hfirst⟩ := hfirst
  obtain ⟨us, hus, hsecond, -⟩ := hsecond
  have hfills := hfirst.append hsecond
  exact ⟨ts ++ us, .line hts hus, hfills.extends, fun _ ↦ hfills⟩

/-- A line with a block of such lines below it. -/
theorem StandTogether.below {as : List α} (h : StandTogether phrase (l + 1) block as)
    (has : as ≠ []) : ∃ ts, Indented phrase ts as ∧
      ∀ {header us}, Lexes parting header us → Begins solid header →
        Fills l (sourceLine l header ++ block) (us ++ ts) := by
  obtain ⟨ts, hts, -, hfills⟩ := h
  refine ⟨_, .mk hts, fun hlexes hbegins ↦ ?_⟩
  simpa using fills_block hlexes hbegins (hfills has)

/-- An assignment is a line of two expressions with a sign between them. -/
theorem assignment_fills {target value : Expr} (htarget : target.Writable)
    (hvalue : value.Writable) : ∃ ts us, Expression ts target ∧ Expression us value ∧
      Fills l (sourceLine l (assignment gap (target.source gap) value))
        (ts ++ .punctuation .assign :: us ++ [.newline]) := by
  obtain ⟨ts, hts, htargetLexes⟩ := (expr_derives gap htarget).expression
  obtain ⟨us, hus, hvalueLexes⟩ := (expr_derives gap hvalue).expression
  refine ⟨ts, us, hts, hus, fills_line ?_ (begins_source htarget).append.append.append.append⟩
  exact htargetLexes.operation gap .assign hvalueLexes rfl (begins_source hvalue).uncompleting

/-! ### Statements -/

mutual

/-- The tokens of a written statement derive it. -/
theorem stmt_stands (l : Nat) : ∀ {s : Stmt}, s.Writable → Stands Statement l (s.source gap l) s
  | .assign name _, h => by
    have htarget : (Expr.variable name).Writable := h.1
    obtain ⟨ts, us, hts, hus, hfills⟩ := assignment_fills gap htarget h.2
    exact ⟨_, .assign name hts hus, hfills⟩
  | .assignIndex name position _, h => by
    have htarget : (Expr.index name position).Writable := ⟨h.1, h.2.1⟩
    obtain ⟨ts, us, hts, hus, hfills⟩ := assignment_fills gap htarget h.2.2
    exact ⟨_, .assignIndex name hts hus, hfills⟩
  | .assignAttribute object name _, h => by
    have htarget : (Expr.member object name).Writable := ⟨h.1, h.2.1⟩
    obtain ⟨ts, us, hts, hus, hfills⟩ := assignment_fills gap htarget h.2.2
    exact ⟨_, .assignAttribute object name hts hus, hfills⟩
  | .print _, h => by
    obtain ⟨ts, hts, hvalue⟩ := (expr_derives gap h).expression
    have hprint : Lexes anything "print(" _ := (Lexes.keyword .printWord).upTo .leftParen rfl
    exact ⟨_, by simpa using Statement.print hts,
      fills_line ((hprint.before hvalue).upTo .rightParen rfl) (.append (.append rfl))⟩
  | .ifElse _ body orelse, h => by
    obtain ⟨test, htest, hcondition⟩ := (expr_derives gap h.1).expression
    obtain ⟨ts, hts, hbody⟩ := (block_stands (l + 1) h.2.1.2).below h.2.1.1
    have hif := hbody (((Lexes.leading .ifWord).before hcondition).upTo .colon rfl)
      (.append (.append rfl))
    rw [Stmt.source]
    cases orelse with
    | nil => exact ⟨_, by simpa using Statement.ifThen htest hts, hif.append extends_empty⟩
    | cons s ss =>
      obtain ⟨us, hus, horelse⟩ := (block_stands (l + 1) h.2.2).below (List.cons_ne_nil s ss)
      have helse := horelse ((Lexes.keyword .elseWord).upTo .colon rfl) rfl
      exact ⟨_, by simpa using Statement.ifElse htest hts hus, hif.append helse.extends⟩
  | .whileLoop _ body, h => by
    obtain ⟨test, htest, hcondition⟩ := (expr_derives gap h.1).expression
    obtain ⟨ts, hts, hbody⟩ := (block_stands (l + 1) h.2.2).below h.2.1
    exact ⟨_, by simpa using Statement.whileLoop htest hts,
      hbody (((Lexes.leading .whileWord).before hcondition).upTo .colon rfl)
        (.append (.append rfl))⟩
  | .forRange name _ stop body, h => by
    obtain ⟨hname, rfl, hstop, hne, hbody⟩ := h
    obtain ⟨bound, hbound, hstop⟩ := (expr_derives gap hstop).expression
    obtain ⟨ts, hts, hbody⟩ := (block_stands (l + 1) hbody).below hne
    have hfor : Lexes anything ("for " ++ name ++ " in range(") _ :=
      ((Lexes.leading .forWord).before (.name hname)).upTo .inRange rfl
    exact ⟨_, by simpa using Statement.forRange name hbound hts,
      hbody ((hfor.before hstop).upTo .opening rfl) (.append (.append (.append (.append rfl))))⟩
  | .define _, h => by
    obtain ⟨ts, hts, hfills⟩ := routine_stands l h
    exact ⟨ts, .define hts, hfills⟩
  | .defineClass _, h => class_stands l h
  | .return none, _ => ⟨_, .returnNone, fills_line (.keyword .returnWord) rfl⟩
  | .return (some _), h => by
    obtain ⟨ts, hts, hvalue⟩ := (expr_derives gap h).expression
    exact ⟨_, .returnSome hts,
      fills_line ((Lexes.leading .returnWord).before hvalue) (.append rfl)⟩
  | .expr _, h => by
    obtain ⟨ts, hts, hvalue⟩ := (expr_derives gap h).expression
    exact ⟨_, .expr hts, fills_line hvalue (begins_source h)⟩
  | .pass, _ => ⟨_, .pass, fills_line (.keyword .passWord) rfl⟩

theorem block_stands (l : Nat) : ∀ {b : List Stmt}, BlockWritable b →
    StandTogether Statement l (sourceOfBlock gap l b) b
  | [], _ => standTogether_nil
  | _ :: _, h => (stmt_stands l h.1).cons (block_stands l h.2)

theorem routine_stands (l : Nat) : ∀ {r : Routine (List Stmt)}, RoutineWritable r →
    Stands (RoutineOver Statement) l (sourceOfRoutine gap l r) r
  | ⟨name, params, body⟩, h => by
    obtain ⟨hname, hparams, hne, hbody⟩ := h
    obtain ⟨parameters, hparameters, hparams⟩ := derives_params gap hparams
    obtain ⟨ts, hts, hbody⟩ := (block_stands (l + 1) hbody).below hne
    have hdef : Lexes anything ("def " ++ name ++ "(") _ :=
      ((Lexes.leading .defWord).before (.name hname)).upTo .leftParen rfl
    exact ⟨_, by simpa using RoutineOver.mk name hparameters hts,
      hbody ((hdef.before hparams).upTo .opening rfl) (.append (.append (.append (.append rfl))))⟩

theorem methods_stand (l : Nat) : ∀ {ms : List (Routine (List Stmt))}, MethodsWritable ms →
    StandTogether (MemberOver Statement) l (sourceOfMethods gap l ms) (ms.map fun m ↦ [m])
  | [], _ => standTogether_nil
  | _ :: _, h => by
    obtain ⟨ts, hts, hfills⟩ := routine_stands l h.1
    exact Stands.cons ⟨ts, .method hts, hfills⟩ (methods_stand l h.2)

theorem class_stands (l : Nat) : ∀ {c : Class (List Stmt)}, ClassWritable c →
    Stands Statement l (sourceOfClass gap l c) (.defineClass c)
  | ⟨name, methods⟩, h => by
    have hmethods := methods_stand (l + 1) h.2
    -- Without methods, the block of the class is one line, which stands for none.
    have hmembers : ∃ members, members.flatten = methods ∧ members ≠ [] ∧
        StandTogether (MemberOver Statement) (l + 1)
          (if methods.isEmpty then sourceLine (l + 1) "pass"
            else sourceOfMethods gap (l + 1) methods) members := by
      cases methods with
      | nil =>
        have hpass : Stands (MemberOver Statement) (l + 1) (sourceLine (l + 1) "pass") [] :=
          ⟨_, .pass, fills_line (.keyword .passWord) rfl⟩
        have hblock := hpass.cons standTogether_nil
        rw [String.append_empty] at hblock
        exact ⟨[[]], rfl, List.cons_ne_nil _ _, hblock⟩
      | cons m ms =>
        exact ⟨_, List.flatMap_singleton' (m :: ms), List.cons_ne_nil _ _, hmethods⟩
    obtain ⟨members, rfl, hne, hmembers⟩ := hmembers
    obtain ⟨ts, hts, hbody⟩ := hmembers.below hne
    exact ⟨_, by simpa using Statement.defineClass name hts,
      hbody (((Lexes.leading .classWord).before (.name h.1)).upTo .colon rfl)
        (.append (.append rfl))⟩

end

end Offside.Source
