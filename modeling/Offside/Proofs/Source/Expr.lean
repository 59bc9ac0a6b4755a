import Offside.Proofs.Grammar
import Offside.Proofs.Source.Lexemes

/-!
The tokens of a written expression derive it: `expr_derives`. Since every operation stands in
parentheses, an expression is always an operand.
-/

set_option autoImplicit false
set_option relaxedAutoImplicit false

namespace Offside.Source

open Grammar (Operand Expression Items Separated)

variable {S : Char → Bool} {text : String} {ts us : List Token}

/-- A text whose tokens derive a tree. -/
def Derives {α : Type} (phrase : List Token → α → Prop) (text : String) (a : α) : Prop :=
  ∃ ts, phrase ts a ∧ Lexes parting text ts

/-! ### Delimiters -/

namespace Lexes

theorem leftParen : Lexes S "(" [.punctuation .leftParen] :=
  (mark .leftParen nofun).free

theorem rightParen : Lexes S ")" [.punctuation .rightParen] :=
  (mark .rightParen nofun).free

theorem leftBracket : Lexes S "[" [.punctuation .leftBracket] :=
  (mark .leftBracket nofun).free

theorem rightBracket : Lexes S "]" [.punctuation .rightBracket] :=
  (mark .rightBracket nofun).free

theorem comma : Lexes S "," [.punctuation .comma] :=
  (mark .comma nofun).free

theorem dot : Lexes S "." [.punctuation .dot] :=
  (mark .dot nofun).free

/-- An operator with blanks around it does not run into its operands. -/
theorem operation (gap : Nat) {left symbol right : String} {t : Token}
    (hleft : Lexes parting left ts) (hsymbol : Lexes uncompleting symbol [t])
    (hright : Lexes parting right us) (hparting : Begins parting symbol)
    (huncompleting : Begins uncompleting right) :
    Lexes parting (operation gap left symbol right) (ts ++ t :: us) := by
  -- Without blanks the operator itself ends the left operand, and the right one the operator.
  have hblanks : Lexes parting (left ++ Offside.blanks gap) (ts ++ []) :=
    hleft.append (blanks gap).free fun _ ↦ .blanks rfl gap
  have hlexes := ((hblanks.upTo hsymbol hparting).append (blanks gap).free
    fun _ ↦ .blanks rfl gap).upTo hright huncompleting
  rw [Offside.operation]
  simpa using hlexes

end Lexes

/-! ### The beginning of an expression -/

/-- The characters that are no blanks and complete no comparison. -/
def solid (c : Char) : Bool :=
  !Text.isBlank c && uncompleting c

theorem Begins.uncompleting (h : Begins solid text) : Begins uncompleting text := by
  obtain ⟨c, cs, htext, hc⟩ := h.exists_cons
  rw [Begins, htext]
  exact (Bool.and_eq_true_iff.mp hc).2

theorem begins_symbol (op : ArithOp) : Begins parting op.symbol := by
  cases op <;> rfl

theorem begins_compareSymbol (op : CompareOp) : Begins parting op.symbol := by
  cases op <;> rfl

theorem solid_of_printable {c : Char} (hlow : 33 ≤ c.toNat) (hhigh : c.toNat ≤ 126)
    (hne : c ≠ '=') : solid c = true := by
  simp [solid, uncompleting, isBlank_of_printable hlow hhigh, hne]

theorem begins_name (h : IsName text) : Begins solid text := by
  obtain ⟨c, cs, htext, hc⟩ := Begins.exists_cons h.1
  have hbounds := toNat_of_wordStart hc
  have hne : c ≠ '=' := by
    rintro rfl
    cases hc
  rw [Begins, htext]
  exact solid_of_printable (by omega) (by omega) hne

theorem begins_toString (n : Nat) : Begins solid (toString n) := by
  obtain ⟨c, more, htext, hdigits, -⟩ := toList_toString n
  have hdigit := hdigits c (.head more)
  have hbounds := toNat_of_isDigit hdigit
  have hne : c ≠ '=' := by
    rintro rfl
    cases hdigit
  rw [Begins, htext]
  exact solid_of_printable (by omega) (by omega) hne

/-- An integer that is not negative is written as a natural number, which is no larger than a
literal can be. -/
theorem toString_toInt {i : Int64} (hi : 0 ≤ i.toInt) :
    toString i.toInt = toString i.toInt.toNat ∧ i.toInt.toNat < Lexeme.literalLimit ∧
      Int64.ofNat i.toInt.toNat = i := by
  obtain ⟨n, hn⟩ := Int.eq_ofNat_of_zero_le hi
  have hlimit : n < Lexeme.literalLimit := by
    have hlt := i.toInt_lt
    unfold Lexeme.literalLimit
    omega
  rw [hn, Int.toNat_natCast]
  refine ⟨rfl, hlimit, ?_⟩
  rw [← Int64.ofInt_eq_ofNat, ← hn, Int64.ofInt_toInt]

theorem begins_source {gap : Nat} : ∀ {e : Expr}, e.Writable → Begins solid (e.source gap)
  | .number (.int i), h => by
    rw [Expr.source, Number.text, (toString_toInt h).1]
    exact begins_toString _
  | .boolean true, _ => show Begins solid "True" from rfl
  | .boolean false, _ => show Begins solid "False" from rfl
  | .variable _, h => begins_name h
  | .arith _ _ _, _ => .append (.append rfl)
  | .compare _ _ _, _ => .append (.append rfl)
  | .call _ _, h => (begins_name h.1).append.append.append
  | .list _, _ => .append (.append rfl)
  | .index _ _, h => (begins_name h.1).append.append.append
  | .member _ _, h => (begins_name h.1).append.append
  | .methodCall _ _ _, h => (begins_name h.1).append.append.append.append.append

/-! ### Items -/

variable (gap : Nat)

section

variable {α : Type} {item : List Token → α → Prop} {source : α → String}

theorem derives_separated (a : α) (as : List α) (h : ∀ b ∈ a :: as, Derives item (source b) b) :
    Derives (Separated item) (commaSeparated gap ((a :: as).map source)) (a :: as) := by
  induction as generalizing a with
  | nil =>
    obtain ⟨ts, hts, hlexes⟩ := h a (.head [])
    exact ⟨ts, .one hts, hlexes⟩
  | cons b bs ih =>
    obtain ⟨ts, hts, hlexes⟩ := h a (.head (b :: bs))
    obtain ⟨us, hus, hrest⟩ := ih b fun c hc ↦ h c (.tail a hc)
    have hcomma := ((hlexes.upTo .comma rfl).before (.blanks gap)).before hrest
    refine ⟨ts ++ .punctuation .comma :: us, .more hts hus, ?_⟩
    rw [List.map_cons, List.map_cons, commaSeparated]
    · simpa using hcomma
    · nofun

/-- The text of items derives them if that of each one does. -/
theorem derives_items {as : List α} (h : ∀ a ∈ as, Derives item (source a) a) :
    Derives (Items item) (commaSeparated gap (as.map source)) as := by
  cases as with
  | nil => exact ⟨[], .none, .free .empty⟩
  | cons a as =>
    obtain ⟨ts, hts, hlexes⟩ := derives_separated gap a as h
    exact ⟨ts, .some hts, hlexes⟩

end

theorem derives_params {params : List String} (h : ∀ x ∈ params, IsName x) :
    Derives (Items Grammar.Name) (commaSeparated gap params) params := by
  have hitems : ∀ x ∈ params, Derives Grammar.Name (id x) x :=
    fun x hx ↦ ⟨_, .mk x, .name (h x hx)⟩
  simpa using derives_items gap hitems

/-! ### Expressions -/

theorem sourcesOfExprs_eq_map (es : List Expr) :
    sourcesOfExprs gap es = es.map (Expr.source gap) := by
  induction es with
  | nil => rfl
  | cons e es ih => exact congrArg (e.source gap :: ·) ih

theorem Derives.expression {e : Expr} (h : Derives Operand text e) : Derives Expression text e := by
  obtain ⟨ts, hts, hlexes⟩ := h
  exact ⟨ts, .sum (.one (.one hts)), hlexes⟩

/-- An operation on operands, at the level of its operator. -/
theorem derives_arith (op : ArithOp) {a b : Expr} (hleft : Operand ts a) (hright : Operand us b) :
    Expression (ts ++ .arith op :: us) (.arith op a b) := by
  cases op with
  | add => exact .sum (.more (.one (.one hleft)) (by decide) (.one hright))
  | sub => exact .sum (.more (.one (.one hleft)) (by decide) (.one hright))
  | mul => exact .sum (.one (.more (.one hleft) (by decide) hright))
  | div => exact .sum (.one (.more (.one hleft) (by decide) hright))

mutual

/-- The tokens of a written expression derive it. -/
theorem expr_derives : ∀ {e : Expr}, e.Writable → Derives Operand (e.source gap) e
  | .number (.int i), h => by
    obtain ⟨htext, hlimit, hvalue⟩ := toString_toInt h
    have hlexes := Lexes.number hlimit
    rw [← htext, hvalue] at hlexes
    exact ⟨_, .number i, hlexes⟩
  | .boolean true, _ => ⟨_, .true, .keyword .trueWord⟩
  | .boolean false, _ => ⟨_, .false, .keyword .falseWord⟩
  | .variable name, h => ⟨_, .variable name, .name h⟩
  | .arith op left right, h => by
    obtain ⟨ts, hts, hleft⟩ := expr_derives h.1
    obtain ⟨us, hus, hright⟩ := expr_derives h.2
    have hlexes := hleft.operation gap (Lexes.arith op).free hright (begins_symbol op)
      (begins_source h.2).uncompleting
    exact ⟨_, .parens (derives_arith op hts hus),
      (Lexes.leftParen.before hlexes).upTo .rightParen rfl⟩
  | .compare op left right, h => by
    obtain ⟨ts, hts, hleft⟩ := expr_derives h.1
    obtain ⟨us, hus, hright⟩ := expr_derives h.2
    have hlexes := hleft.operation gap (Lexes.compare op) hright (begins_compareSymbol op)
      (begins_source h.2).uncompleting
    exact ⟨_, .parens (.compare op (.one (.one hts)) (.one (.one hus))),
      (Lexes.leftParen.before hlexes).upTo .rightParen rfl⟩
  | .call name args, h => by
    obtain ⟨ts, hts, hargs⟩ := derives_items gap (exprs_derive h.2)
    refine ⟨_, .call name hts, ?_⟩
    rw [Expr.source, sourcesOfExprs_eq_map gap]
    exact (((Lexes.name h.1).upTo .leftParen rfl).before hargs).upTo .rightParen rfl
  | .list items, h => by
    obtain ⟨ts, hts, hitems⟩ := derives_items gap (exprs_derive h)
    refine ⟨_, .list hts, ?_⟩
    rw [Expr.source, sourcesOfExprs_eq_map gap]
    exact (Lexes.leftBracket.before hitems).upTo .rightBracket rfl
  | .index name position, h => by
    obtain ⟨ts, hts, hposition⟩ := (expr_derives h.2).expression
    exact ⟨_, .index name hts,
      (((Lexes.name h.1).upTo .leftBracket rfl).before hposition).upTo .rightBracket rfl⟩
  | .member object name, h =>
    ⟨_, .member object name, ((Lexes.name h.1).upTo .dot rfl).before (.name h.2)⟩
  | .methodCall object method args, h => by
    obtain ⟨ts, hts, hargs⟩ := derives_items gap (exprs_derive h.2.2)
    refine ⟨_, .methodCall object method hts, ?_⟩
    rw [Expr.source, sourcesOfExprs_eq_map gap]
    have hmember := ((Lexes.name h.1).upTo .dot rfl).before (Lexes.name h.2.1)
    exact ((hmember.upTo .leftParen rfl).before hargs).upTo .rightParen rfl

theorem exprs_derive : ∀ {es : List Expr}, ExprsWritable es →
    ∀ e ∈ es, Derives Expression (e.source gap) e
  | [], _ => nofun
  | _ :: _, h => List.forall_mem_cons.mpr ⟨(expr_derives h.1).expression, exprs_derive h.2⟩

end

end Offside.Source
