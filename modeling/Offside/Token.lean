import Offside.Operator

/-!
Tokens: keywords, punctuation, and the three layout tokens that carry the block structure, each with
the place in the source text where it stands.
-/

set_option autoImplicit false
set_option relaxedAutoImplicit false

namespace Offside

/-- A reserved word. -/
inductive Keyword
  | defWord
  | returnWord
  | ifWord
  | elseWord
  | whileWord
  | forWord
  | inWord
  | classWord
  | printWord
  | passWord
  | trueWord
  | falseWord
  deriving DecidableEq

namespace Keyword

def spelling : Keyword → String
  | .defWord => "def"
  | .returnWord => "return"
  | .ifWord => "if"
  | .elseWord => "else"
  | .whileWord => "while"
  | .forWord => "for"
  | .inWord => "in"
  | .classWord => "class"
  | .printWord => "print"
  | .passWord => "pass"
  | .trueWord => "True"
  | .falseWord => "False"

def all : List Keyword :=
  [.defWord, .returnWord, .ifWord, .elseWord, .whileWord, .forWord, .inWord, .classWord, .printWord,
    .passWord, .trueWord, .falseWord]

theorem mem_all (k : Keyword) : k ∈ all := by
  cases k <;> decide

/-- The keyword of the given spelling. -/
def ofSpelling? (word : String) : Option Keyword :=
  all.find? fun k ↦ k.spelling = word

theorem ofSpelling?_spelling (k : Keyword) : ofSpelling? k.spelling = some k := by
  cases k <;> decide

theorem spelling_of_ofSpelling? {word : String} {k : Keyword} (h : ofSpelling? word = some k) :
    k.spelling = word := by
  simpa using List.find?_some h

end Keyword

/-- A delimiter, or the sign of an assignment. -/
inductive Punctuation
  | assign
  | leftParen
  | rightParen
  | leftBracket
  | rightBracket
  | colon
  | comma
  | dot
  deriving DecidableEq

namespace Punctuation

def spelling : Punctuation → String
  | .assign => "="
  | .leftParen => "("
  | .rightParen => ")"
  | .leftBracket => "["
  | .rightBracket => "]"
  | .colon => ":"
  | .comma => ","
  | .dot => "."

end Punctuation

/-- A token. A newline ends each line that holds code; indents and dedents open and close blocks. -/
inductive Token
  | identifier (name : String)
  | number (value : Int64)
  | keyword (word : Keyword)
  | compare (op : CompareOp)
  | arith (op : ArithOp)
  | punctuation (mark : Punctuation)
  | newline
  | indent
  | dedent
  | endOfInput
  deriving DecidableEq

namespace Token

/-- How an error message or a token listing names the token. -/
def describe : Token → String
  | .identifier name => "identifier '" ++ name ++ "'"
  | .number value => "number " ++ toString value.toInt
  | .keyword word => "'" ++ word.spelling ++ "'"
  | .compare op => "'" ++ op.symbol ++ "'"
  | .arith op => "'" ++ op.symbol ++ "'"
  | .punctuation mark => "'" ++ mark.spelling ++ "'"
  | .newline => "newline"
  | .indent => "indent"
  | .dedent => "dedent"
  | .endOfInput => "end of input"

end Token

/-- A token with its line, counted from one, and its column, the number of bytes before it on the
line plus one. -/
structure PlacedToken where
  token : Token
  line : Nat
  column : Nat
  deriving DecidableEq

namespace PlacedToken

/-- One line of a token listing. -/
def listed (t : PlacedToken) : String :=
  toString t.line ++ ":" ++ toString t.column ++ " " ++ t.token.describe

end PlacedToken

end Offside
