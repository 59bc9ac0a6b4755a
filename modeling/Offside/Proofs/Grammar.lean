import Offside.Syntax
import Offside.Token

/-!
The grammar of the language: `Program text p` says that the tokens `text` derive the tree `p`. It
does not depend on how programs are read. The productions of a phrase that nests take the grammar of
what they nest as a parameter. A reading decides on the first token of a phrase, so which tokens
these can be is said here as well.
-/

set_option autoImplicit false
set_option relaxedAutoImplicit false

namespace Offside.Grammar

/-! ### Lists and blocks -/

section

variable {α : Type}

/-- `X {, X}` -/
inductive Separated (item : List Token → α → Prop) : List Token → List α → Prop
  | one {text : List Token} {a : α} (h : item text a) : Separated item text [a]
  | more {first rest : List Token} {a : α} {as : List α} (hfirst : item first a)
    (hrest : Separated item rest as) :
    Separated item (first ++ .punctuation .comma :: rest) (a :: as)

/-- `[X {, X}]` -/
inductive Items (item : List Token → α → Prop) : List Token → List α → Prop
  | none : Items item [] []
  | some {text : List Token} {as : List α} (h : Separated item text as) : Items item text as

/-- `(NEWLINE | X)*` -/
inductive Lines (line : List Token → α → Prop) : List Token → List α → Prop
  | nil : Lines line [] []
  | blank {text : List Token} {as : List α} (h : Lines line text as) :
    Lines line (.newline :: text) as
  | line {first rest : List Token} {a : α} {as : List α} (hfirst : line first a)
    (hrest : Lines line rest as) : Lines line (first ++ rest) (a :: as)

/-- `NEWLINE INDENT (NEWLINE | X)* DEDENT` -/
inductive Indented (line : List Token → α → Prop) : List Token → List α → Prop
  | mk {text : List Token} {as : List α} (h : Lines line text as) :
    Indented line (.newline :: .indent :: text ++ [.dedent]) as

end

/-- `ID` -/
inductive Name : List Token → String → Prop
  | mk (name : String) : Name [.identifier name] name

/-! ### Expressions -/

/-- `X {op X}`, which associates to the left. -/
inductive Chain (operators : List ArithOp) (operand : List Token → Expr → Prop) :
    List Token → Expr → Prop
  | one {text : List Token} {e : Expr} (h : operand text e) : Chain operators operand text e
  | more {left right : List Token} {op : ArithOp} {a b : Expr}
    (hleft : Chain operators operand left a) (hop : op ∈ operators) (hright : operand right b) :
    Chain operators operand (left ++ .arith op :: right) (.arith op a b)

/-- `E = A [cmp A]`, where `A = M {(+|-) M}` and `M = P {(*|/) P}`. -/
inductive ExpressionOver (operand : List Token → Expr → Prop) : List Token → Expr → Prop
  | sum {text : List Token} {e : Expr}
    (h : Chain [.add, .sub] (Chain [.mul, .div] operand) text e) : ExpressionOver operand text e
  | compare {left right : List Token} {a b : Expr} (op : CompareOp)
    (hleft : Chain [.add, .sub] (Chain [.mul, .div] operand) left a)
    (hright : Chain [.add, .sub] (Chain [.mul, .div] operand) right b) :
    ExpressionOver operand (left ++ .compare op :: right) (.compare op a b)

/-- `P = NUMBER | True | False | - P | ID | ID ( [E {, E}] ) | ID [ E ] | ID . ID |
ID . ID ( [E {, E}] ) | [ [E {, E}] ] | ( E )`, where `- P` stands for `0 - P`. -/
inductive Operand : List Token → Expr → Prop
  | number (value : Int64) : Operand [.number value] (.number (.int value))
  | true : Operand [.keyword .trueWord] (.boolean true)
  | false : Operand [.keyword .falseWord] (.boolean false)
  | negation {text : List Token} {e : Expr} (h : Operand text e) :
    Operand (.arith .sub :: text) (.arith .sub (.number (.int 0)) e)
  | variable (name : String) : Operand [.identifier name] (.variable name)
  | call {text : List Token} {args : List Expr} (name : String)
    (h : Items (ExpressionOver Operand) text args) :
    Operand (.identifier name :: .punctuation .leftParen :: text ++ [.punctuation .rightParen])
      (.call name args)
  | index {text : List Token} {position : Expr} (name : String)
    (h : ExpressionOver Operand text position) :
    Operand (.identifier name :: .punctuation .leftBracket :: text ++ [.punctuation .rightBracket])
      (.index name position)
  | member (object name : String) :
    Operand [.identifier object, .punctuation .dot, .identifier name] (.member object name)
  | methodCall {text : List Token} {args : List Expr} (object method : String)
    (h : Items (ExpressionOver Operand) text args) :
    Operand (.identifier object :: .punctuation .dot :: .identifier method ::
      .punctuation .leftParen :: text ++ [.punctuation .rightParen])
      (.methodCall object method args)
  | list {text : List Token} {items : List Expr} (h : Items (ExpressionOver Operand) text items) :
    Operand (.punctuation .leftBracket :: text ++ [.punctuation .rightBracket]) (.list items)
  | parens {text : List Token} {e : Expr} (h : ExpressionOver Operand text e) :
    Operand (.punctuation .leftParen :: text ++ [.punctuation .rightParen]) e

/-- `E` -/
abbrev Expression : List Token → Expr → Prop :=
  ExpressionOver Operand

/-! ### Statements -/

/-- `def ID ( [ID {, ID}] ) : block` -/
inductive RoutineOver (statement : List Token → Stmt → Prop) : List Token → Routine Block → Prop
  | mk {parameters text : List Token} {params : List String} {body : Block} (name : String)
    (hparams : Items Name parameters params) (hbody : Indented statement text body) :
    RoutineOver statement
      (.keyword .defWord :: .identifier name :: .punctuation .leftParen :: parameters ++
        .punctuation .rightParen :: .punctuation .colon :: text) ⟨name, params, body⟩

/-- `def ID ( [ID {, ID}] ) : block | pass NEWLINE`, where the second stands for no method. -/
inductive MemberOver (statement : List Token → Stmt → Prop) :
    List Token → List (Routine Block) → Prop
  | method {text : List Token} {r : Routine Block} (h : RoutineOver statement text r) :
    MemberOver statement text [r]
  | pass : MemberOver statement [.keyword .passWord, .newline] []

/-- A statement. What stands left of `=` is an `E` whose tree is a variable, an index or an
attribute. -/
inductive Statement : List Token → Stmt → Prop
  | print {text : List Token} {value : Expr} (h : Expression text value) :
    Statement (.keyword .printWord :: .punctuation .leftParen :: text ++
      [.punctuation .rightParen, .newline]) (.print value)
  | define {text : List Token} {r : Routine Block} (h : RoutineOver Statement text r) :
    Statement text (.define r)
  | defineClass {text : List Token} {members : List (List (Routine Block))} (name : String)
    (h : Indented (MemberOver Statement) text members) :
    Statement (.keyword .classWord :: .identifier name :: .punctuation .colon :: text)
      (.defineClass ⟨name, members.flatten⟩)
  | returnNone : Statement [.keyword .returnWord, .newline] (.return none)
  | returnSome {text : List Token} {value : Expr} (h : Expression text value) :
    Statement (.keyword .returnWord :: text ++ [.newline]) (.return (some value))
  | ifThen {test text : List Token} {condition : Expr} {body : Block}
    (hcondition : Expression test condition) (hbody : Indented Statement text body) :
    Statement (.keyword .ifWord :: test ++ .punctuation .colon :: text)
      (.ifElse condition body [])
  | ifElse {test first second : List Token} {condition : Expr} {body orelse : Block}
    (hcondition : Expression test condition) (hbody : Indented Statement first body)
    (horelse : Indented Statement second orelse) :
    Statement (.keyword .ifWord :: test ++ .punctuation .colon :: first ++
      .keyword .elseWord :: .punctuation .colon :: second) (.ifElse condition body orelse)
  | whileLoop {test text : List Token} {condition : Expr} {body : Block}
    (hcondition : Expression test condition) (hbody : Indented Statement text body) :
    Statement (.keyword .whileWord :: test ++ .punctuation .colon :: text)
      (.whileLoop condition body)
  | forRange {bound text : List Token} {stop : Expr} {body : Block} (name : String)
    (hstop : Expression bound stop) (hbody : Indented Statement text body) :
    Statement (.keyword .forWord :: .identifier name :: .keyword .inWord :: .identifier "range" ::
      .punctuation .leftParen :: bound ++ .punctuation .rightParen :: .punctuation .colon :: text)
      (.forRange name (.number (.int 0)) stop body)
  | pass : Statement [.keyword .passWord, .newline] .pass
  | expr {text : List Token} {value : Expr} (h : Expression text value) :
    Statement (text ++ [.newline]) (.expr value)
  | assign {target text : List Token} {value : Expr} (name : String)
    (htarget : Expression target (.variable name)) (hvalue : Expression text value) :
    Statement (target ++ .punctuation .assign :: text ++ [.newline]) (.assign name value)
  | assignIndex {target text : List Token} {position value : Expr} (name : String)
    (htarget : Expression target (.index name position)) (hvalue : Expression text value) :
    Statement (target ++ .punctuation .assign :: text ++ [.newline])
      (.assignIndex name position value)
  | assignAttribute {target text : List Token} {value : Expr} (object name : String)
    (htarget : Expression target (.member object name)) (hvalue : Expression text value) :
    Statement (target ++ .punctuation .assign :: text ++ [.newline])
      (.assignAttribute object name value)

/-- `(NEWLINE | stmt)*` -/
abbrev Program : List Token → Block → Prop :=
  Lines Statement

/-! ### First tokens -/

/-- A text that begins with a token of the given kind. -/
def Begins (S : Token → Prop) (text : List Token) : Prop :=
  ∃ t rest, text = t :: rest ∧ S t

/-- What an operand begins with. -/
def StartsOperand : Token → Prop
  | .number _ => True
  | .identifier _ => True
  | .keyword .trueWord => True
  | .keyword .falseWord => True
  | .arith .sub => True
  | .punctuation .leftParen => True
  | .punctuation .leftBracket => True
  | _ => False

/-- What a statement begins with, among other tokens. -/
def StartsStatement : Token → Prop
  | .newline => False
  | .dedent => False
  | .endOfInput => False
  | .keyword .elseWord => False
  | _ => True

section

variable {S S' : Token → Prop} {text more : List Token}

theorem begins_cons {t : Token} (h : S t) : Begins S (t :: text) :=
  ⟨t, text, rfl, h⟩

theorem Begins.append (h : Begins S text) : Begins S (text ++ more) := by
  obtain ⟨t, rest, rfl, ht⟩ := h
  exact begins_cons ht

theorem Begins.mono (h : Begins S text) (hS : ∀ t, S t → S' t) : Begins S' text := by
  obtain ⟨t, rest, rfl, ht⟩ := h
  exact begins_cons (hS t ht)

theorem Begins.length_pos (h : Begins S text) : 1 ≤ text.length := by
  obtain ⟨t, rest, rfl, -⟩ := h
  exact Nat.le_add_left 1 _

theorem Begins.headD (h : Begins S text) (t : Token) : S (text.headD t) := by
  obtain ⟨t', rest, rfl, ht'⟩ := h
  exact ht'

/-- What stands behind a line: the next line, or what follows the lines. -/
theorem Lines.headD {α : Type} {line : List Token → α → Prop} {as : List α} {t : Token}
    (h : Lines line text as) (hbegins : ∀ {text a}, line text a → Begins S text)
    (hblank : S .newline) (ht : S t) : S (text.headD t) := by
  cases h with
  | nil => exact ht
  | blank h => exact hblank
  | line hfirst hrest => exact (hbegins hfirst).append.headD t

theorem Operand.begins {e : Expr} (h : Operand text e) : Begins StartsOperand text := by
  cases h <;> exact begins_cons trivial

theorem Chain.begins {operators : List ArithOp} {operand : List Token → Expr → Prop} {e : Expr}
    (hoperand : ∀ {text e}, operand text e → Begins S text) (h : Chain operators operand text e) :
    Begins S text := by
  induction h with
  | one h => exact hoperand h
  | more hleft hop hright ih => exact ih.append

theorem Expression.begins {e : Expr} (h : Expression text e) : Begins StartsOperand text := by
  cases h with
  | sum h => exact h.begins (Chain.begins Operand.begins)
  | compare op hleft hright => exact (hleft.begins (Chain.begins Operand.begins)).append

theorem startsStatement_of_startsOperand {t : Token} (h : StartsOperand t) : StartsStatement t := by
  unfold StartsStatement
  split <;> first | exact h | trivial

theorem startsStatement_ne {t : Token} (h : StartsStatement t) :
    t ≠ .newline ∧ t ≠ .dedent ∧ t ≠ .endOfInput ∧ t ≠ .keyword .elseWord := by
  refine ⟨?_, ?_, ?_, ?_⟩ <;> rintro rfl <;> exact h

theorem RoutineOver.begins {statement : List Token → Stmt → Prop} {r : Routine Block}
    (h : RoutineOver statement text r) : Begins (· = .keyword .defWord) text := by
  cases h
  exact begins_cons rfl

theorem MemberOver.begins {statement : List Token → Stmt → Prop} {rs : List (Routine Block)}
    (h : MemberOver statement text rs) : Begins StartsStatement text := by
  cases h with
  | method h =>
    refine h.begins.mono ?_
    rintro _ rfl
    trivial
  | pass => exact begins_cons trivial

theorem Statement.begins {st : Stmt} (h : Statement text st) : Begins StartsStatement text := by
  have hexpression {text : List Token} {e : Expr} (h : Expression text e) :=
    h.begins.mono fun _ ↦ startsStatement_of_startsOperand
  cases h with
  | define h =>
    refine h.begins.mono ?_
    rintro _ rfl
    trivial
  | expr h => exact (hexpression h).append
  | assign name htarget hvalue => exact (hexpression htarget).append.append
  | assignIndex name htarget hvalue => exact (hexpression htarget).append.append
  | assignAttribute object name htarget hvalue => exact (hexpression htarget).append.append
  | _ => exact begins_cons trivial

end

end Offside.Grammar
