import Offside.Text.Blank
import Offside.Text.DecimalDigit
import Offside.Text.Natural
import Offside.Token

/-!
Lexemes: the token at the front of a text. The longest spelling wins, so `==` is read before `=`. A
run of decimal digits of any script is taken as one literal; it is a number only if the digits are
those of ASCII and the value fits into 63 bits.
-/

set_option autoImplicit false
set_option relaxedAutoImplicit false

namespace Offside

/-- Why no token stands at the front of a text. -/
inductive LexemeFault
  | unexpectedCharacter (character : Char)
  | invalidNumber (literal : String)
  deriving DecidableEq

/-- A token and how many characters it takes besides the first. -/
structure Lexeme where
  token : Token
  further : Nat
  deriving DecidableEq

namespace Lexeme

/-- The least natural number that is too large for a literal. -/
def literalLimit : Nat := 0x8000000000000000

/-- Letters of ASCII and the underscore begin a word. -/
def isWordStart (c : Char) : Bool :=
  c.isAlpha || c = '_'

/-- Letters and digits of ASCII and the underscore continue a word. -/
def isWordPart (c : Char) : Bool :=
  c.isAlphanum || c = '_'

/-- A word is a keyword or an identifier. -/
def ofWord (word : String) : Token :=
  match Keyword.ofSpelling? word with
  | some k => .keyword k
  | none => .identifier word

/-- The operator or delimiter that begins with the first character and may take one more. -/
def mark? : Char → List Char → Option Lexeme
  | '=', '=' :: _ => some ⟨.compare .eq, 1⟩
  | '!', '=' :: _ => some ⟨.compare .ne, 1⟩
  | '<', '=' :: _ => some ⟨.compare .le, 1⟩
  | '>', '=' :: _ => some ⟨.compare .ge, 1⟩
  | '<', _ => some ⟨.compare .lt, 0⟩
  | '>', _ => some ⟨.compare .gt, 0⟩
  | '+', _ => some ⟨.arith .add, 0⟩
  | '-', _ => some ⟨.arith .sub, 0⟩
  | '*', _ => some ⟨.arith .mul, 0⟩
  | '/', _ => some ⟨.arith .div, 0⟩
  | '=', _ => some ⟨.punctuation .assign, 0⟩
  | '(', _ => some ⟨.punctuation .leftParen, 0⟩
  | ')', _ => some ⟨.punctuation .rightParen, 0⟩
  | '[', _ => some ⟨.punctuation .leftBracket, 0⟩
  | ']', _ => some ⟨.punctuation .rightBracket, 0⟩
  | ':', _ => some ⟨.punctuation .colon, 0⟩
  | ',', _ => some ⟨.punctuation .comma, 0⟩
  | '.', _ => some ⟨.punctuation .dot, 0⟩
  | _, _ => none

/-- The lexeme that begins with the character `c`, with the text `cs` behind it. -/
def read (c : Char) (cs : List Char) : Except LexemeFault Lexeme :=
  if Text.isDecimalDigit c then
    let more := cs.takeWhile Text.isDecimalDigit
    match Text.natural literalLimit (c :: more) with
    | .ok n => .ok ⟨.number (.ofNat n), more.length⟩
    | .error _ => .error (.invalidNumber (String.ofList (c :: more)))
  else if isWordStart c then
    let more := cs.takeWhile isWordPart
    .ok ⟨ofWord (String.ofList (c :: more)), more.length⟩
  else
    match mark? c cs with
    | some lexeme => .ok lexeme
    | none => .error (.unexpectedCharacter c)

end Lexeme

end Offside
