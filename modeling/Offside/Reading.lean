import Offside.Token

/-!
Reading tokens. A `Reading α` takes tokens from the front of a sequence and yields an `α`, or fails
at the token where it stands. The sequence ends with the end of the input, which is looked at and
never taken. What repeats or nests takes a `bound` on the number of tokens left, which is reached by
no reading, since each repetition and each level of nesting takes a token.
-/

set_option autoImplicit false
set_option relaxedAutoImplicit false

namespace Offside

/-- What could have stood where an unexpected token stands. -/
inductive Expected
  | token (t : Token)
  | identifier
  | expression
  | method
  deriving DecidableEq

/-- A construct that can be read and has no meaning in the language. -/
inductive Construct
  | iteration (iterated : String)
  | rangeArguments (count : Nat)
  | assignmentTarget
  | chainedComparison
  | accessChain
  deriving DecidableEq

/-- Why tokens form no program. -/
inductive ParseError
  | unexpected (expected : Expected) (found : Token) (line : Nat)
  | unsupported (construct : Construct) (line : Nat)
  deriving DecidableEq

namespace Expected

def describe : Expected → String
  | .token t => t.describe
  | .identifier => "identifier"
  | .expression => "expression"
  | .method => "method definition"

end Expected

namespace Construct

def describe : Construct → String
  | .iteration iterated => "iteration over '" ++ iterated ++ "'"
  | .rangeArguments count => "range with " ++ toString count ++ " arguments"
  | .assignmentTarget => "assignment target"
  | .chainedComparison => "chained comparison"
  | .accessChain => "access chain longer than one hop"

end Construct

namespace ParseError

def line : ParseError → Nat
  | .unexpected _ _ line => line
  | .unsupported _ line => line

def message : ParseError → String
  | .unexpected expected found line =>
    "Expected " ++ expected.describe ++ ", found " ++ found.describe ++ " at line " ++ toString line
  | .unsupported construct line =>
    "Unsupported " ++ construct.describe ++ " at line " ++ toString line

end ParseError

/-- A step of reading, with the tokens not yet taken as its state. -/
abbrev Reading := StateT (List PlacedToken) (Except ParseError)

namespace Reading

/-- A reading goes on with what the first one yields, on the tokens that it leaves. -/
theorem run_bind {α β : Type} (x : Reading β) (f : β → Reading α) (ts : List PlacedToken) :
    (x >>= f) ts = (x ts).bind fun p ↦ f p.1 p.2 :=
  rfl

theorem run_bind_eq_ok {α β : Type} {x : Reading β} {f : β → Reading α} {ts rest : List PlacedToken}
    {a : α} : (x >>= f) ts = .ok (a, rest) ↔
      ∃ b us, x ts = .ok (b, us) ∧ f b us = .ok (a, rest) := by
  rw [run_bind]
  constructor
  · intro h
    cases hx : x ts with
    | error e =>
      rw [hx] at h
      cases h
    | ok p =>
      rw [hx] at h
      exact ⟨p.1, p.2, rfl, h⟩
  · rintro ⟨b, us, hx, h⟩
    rw [hx]
    exact h

/-- The token at the front; behind the last one the input has ended. -/
def current : Reading PlacedToken :=
  fun ts ↦ .ok (ts.headD ⟨.endOfInput, 0, 0⟩, ts)

theorem current_bind {α : Type} (f : PlacedToken → Reading α) (ts : List PlacedToken) :
    (current >>= f) ts = f (ts.headD ⟨.endOfInput, 0, 0⟩) ts :=
  rfl

/-- Takes the token at the front. -/
def advance : Reading Unit :=
  fun ts ↦ .ok ((), ts.tail)

/-- Fails for want of something else at the front. -/
def unexpected {α : Type} (expected : Expected) : Reading α := do
  let t ← current
  throw (.unexpected expected t.token t.line)

/-- Whether the given token is at the front. -/
def at? (token : Token) : Reading Bool := do
  return (← current).token = token

/-- Takes the given token, if it is at the front. -/
def take? (token : Token) : Reading Bool := do
  if ← at? token then
    advance
    return true
  else return false

/-- Takes the given token, which must be at the front. -/
def take (token : Token) : Reading Unit := do
  if ← take? token then return () else unexpected (.token token)

def takeMark (mark : Punctuation) : Reading Unit :=
  take (.punctuation mark)

def takeWord (word : Keyword) : Reading Unit :=
  take (.keyword word)

/-- Takes an identifier, which must be at the front. -/
def identifier : Reading String := do
  match (← current).token with
  | .identifier name =>
    advance
    return name
  | _ => unexpected .identifier

/-- Items with commas between them, at least one. Each further item takes a token, so `bound` need
be no less than the number of tokens left. -/
def itemsBetweenCommas {α : Type} (item : Reading α) : Nat → Reading (List α)
  | 0 => return [← item]
  | bound + 1 => do
    let first ← item
    if ← take? (.punctuation .comma) then return first :: (← itemsBetweenCommas item bound)
    else return [first]

/-- Items with commas between them, if any, up to a closing mark. -/
def itemsUpTo {α : Type} (bound : Nat) (closing : Punctuation) (item : Reading α) :
    Reading (List α) := do
  if ← take? (.punctuation closing) then return []
  else
    let items ← itemsBetweenCommas item bound
    takeMark closing
    return items

/-- Lines up to a token that closes them; lines of no content are skipped. Each line takes a token,
so `bound` need be no less than the number of tokens left. -/
def linesUpTo {α : Type} (closes : Token → Bool) (line : Reading (List α)) :
    Nat → Reading (List α)
  | 0 => return []
  | bound + 1 => do
    if closes (← current).token then return []
    else if ← take? .newline then linesUpTo closes line bound
    else return (← line) ++ (← linesUpTo closes line bound)

/-- An indented block of lines below the line that opens it. -/
def indented {α : Type} (bound : Nat) (line : Reading (List α)) : Reading (List α) := do
  take .newline
  take .indent
  let lines ← linesUpTo (fun t ↦ t = .dedent || t = .endOfInput) line bound
  take .dedent
  return lines

end Reading

end Offside
