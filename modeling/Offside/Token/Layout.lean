import Offside.Token.Lexeme

/-!
The layout of a source text: from text to placed tokens. Lines without code count for the line
numbers and for nothing else. The widths of the open blocks form a strictly increasing stack over
the width zero; a line of code opens one block, or closes those wider than itself and must then
stand on a width that is open. At the end of the text every open block is closed.
-/

set_option autoImplicit false
set_option relaxedAutoImplicit false

namespace Offside

/-- Why a source text has no tokens. -/
inductive LexError
  | inconsistentDedent (width line : Nat)
  | unexpectedCharacter (character : Char) (line column : Nat)
  | tabIndentation (line : Nat)
  | invalidNumber (literal : String) (line column : Nat)
  deriving DecidableEq

namespace LexError

def message : LexError → String
  | .inconsistentDedent width line =>
    "Inconsistent dedent to " ++ toString width ++ " spaces at line " ++ toString line
  | .unexpectedCharacter character line column =>
    "Unexpected character '" ++ character.toString ++ "' at line " ++ toString line ++
      ", column " ++ toString column
  | .tabIndentation line =>
    "Tabs are not supported for indentation at line " ++ toString line
  | .invalidNumber literal line column =>
    "Invalid integer literal '" ++ literal ++ "' at line " ++ toString line ++ ", column " ++
      toString column

/-- Places a fault of a lexeme. -/
def ofFault (line column : Nat) : LexemeFault → LexError
  | .unexpectedCharacter character => .unexpectedCharacter character line column
  | .invalidNumber literal => .invalidNumber literal line column

end LexError

namespace Layout

/-- The number of bytes that characters take in UTF-8. -/
def byteCount : List Char → Nat
  | [] => 0
  | c :: cs => c.utf8Size + byteCount cs

theorem byteCount_append (cs ds : List Char) :
    byteCount (cs ++ ds) = byteCount cs + byteCount ds := by
  induction cs with
  | nil => simp [byteCount]
  | cons c cs ih => simp [byteCount, ih, Nat.add_assoc]

/-- The lines of a text: the parts between its newline characters, at least one. -/
def lines : List Char → List (List Char)
  | [] => [[]]
  | c :: cs =>
    if c = '\n' then [] :: lines cs
    else
      match lines cs with
      | [] => [[c]]
      | line :: rest => (c :: line) :: rest

theorem lines_ne_nil (cs : List Char) : lines cs ≠ [] := by
  cases cs with
  | nil => simp [lines]
  | cons c cs =>
    rw [lines]
    split
    · simp
    · split <;> simp

/-- The code of a line: carriage returns at its end do not count, and a `#` starts a comment. -/
def code (line : List Char) : List Char :=
  (Text.dropTailWhile (· = '\r') line).takeWhile (· ≠ '#')

/-- The tokens of a piece of code that starts in the given column. -/
def tokens (line : Nat) (column : Nat) : List Char → Except LexError (List PlacedToken)
  | [] => .ok []
  | c :: cs =>
    if Text.isBlank c then tokens line (column + c.utf8Size) cs
    else
      match Lexeme.read c cs with
      | .error fault => .error (.ofFault line column fault)
      | .ok lexeme => do
        let width := byteCount (c :: cs.take lexeme.further)
        let rest ← tokens line (column + width) (cs.drop lexeme.further)
        .ok (⟨lexeme.token, line, column⟩ :: rest)
termination_by cs => cs.length

/-- The width of the innermost of the open blocks, which are given by their widths, innermost first,
without the width zero at the bottom. -/
def innermost : List Nat → Nat
  | [] => 0
  | width :: _ => width

/-- The layout tokens of a line of code of the given width, and the blocks that are open behind
them. -/
def adjust (blocks : List Nat) (line width : Nat) :
    Except LexError (List PlacedToken × List Nat) :=
  if innermost blocks < width then .ok ([⟨.indent, line, 1⟩], width :: blocks)
  else
    let kept := blocks.dropWhile (width < ·)
    if innermost kept = width then
      .ok ((blocks.takeWhile (width < ·)).map fun _ ↦ ⟨.dedent, line, 1⟩, kept)
    else .error (.inconsistentDedent width line)

/-- The tokens of one line, and the blocks that are open behind it. -/
def lineTokens (line : Nat) (blocks : List Nat) (text : List Char) :
    Except LexError (List PlacedToken × List Nat) :=
  let code := code text
  if code.all Text.isBlank then .ok ([], blocks)
  else
    let body := code.dropWhile (· = ' ')
    if body.head? = some '\t' then .error (.tabIndentation line)
    else do
      let width := (code.takeWhile (· = ' ')).length
      let (layout, blocks) ← adjust blocks line width
      let tokens ← tokens line (width + 1) body
      .ok (layout ++ tokens ++ [⟨.newline, line, byteCount code + 1⟩], blocks)

/-- The tokens of the lines from the given line on. Behind the last of them the open blocks are
closed and the input ends. -/
def linesTokens (line : Nat) (blocks : List Nat) :
    List (List Char) → Except LexError (List PlacedToken)
  | [] => .ok (blocks.map (fun _ ↦ ⟨.dedent, line, 1⟩) ++ [⟨.endOfInput, line, 1⟩])
  | text :: texts => do
    let (first, blocks) ← lineTokens line blocks text
    let rest ← linesTokens (line + 1) blocks texts
    .ok (first ++ rest)

end Layout

/-- The tokens of a source text. -/
def tokenize (source : String) : Except LexError (List PlacedToken) :=
  Layout.linesTokens 1 [] (Layout.lines source.toList)

end Offside
