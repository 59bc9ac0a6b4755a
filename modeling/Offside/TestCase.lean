import Offside.Text.Blank

/-!
Test cases: what a case expects of a program, whether its expectations fit together, and the form in
which printed texts are compared.
-/

set_option autoImplicit false
set_option relaxedAutoImplicit false

namespace Offside

/-- A stage at which a program can fail. -/
inductive Stage
  | lex
  | parse
  | scope
  | lowering
  | runtime
  deriving DecidableEq

/-- How a case ends. -/
inductive CaseKind
  | success
  | compileError
  | runtimeError
  deriving DecidableEq

structure TestCase where
  name : String
  kind : CaseKind
  expectedOutputFile : Option String
  stage : Option Stage
  errorContains : Option String
  unsupportedBackends : List String
  isBenchmark : Bool
  tags : List String

namespace TestCase

/-- Why the expectations of a case do not fit together. -/
inductive Fault
  | unknownBackend (backend : String)
  | noOutputFile
  | expectsError
  | noCompileStage
  | compileStage
  | noTags
  deriving DecidableEq

def Fault.message (name : String) : Fault → String
  | .unknownBackend backend => "Case " ++ name ++ " lists unknown backend '" ++ backend ++ "'"
  | .noOutputFile => "Case " ++ name ++ " is runtime_success but has no stdout_file"
  | .expectsError => "Case " ++ name ++ " is runtime_success but expects an error"
  | .noCompileStage => "Case " ++ name ++ " is compile_error but names no compile stage"
  | .compileStage => "Case " ++ name ++ " is runtime_error but names a compile stage"
  | .noTags => "Case " ++ name ++ " has bench enabled but no tags"

/-- The fault in what a case expects of the outcome. -/
def outcomeFault? (c : TestCase) : Option Fault :=
  match c.kind with
  | .success =>
    if c.expectedOutputFile.isNone then some .noOutputFile
    else if c.stage.isSome || c.errorContains.isSome then some .expectsError
    else none
  | .compileError =>
    match c.stage with
    | none => some .noCompileStage
    | some .runtime => some .noCompileStage
    | some _ => none
  | .runtimeError =>
    match c.stage with
    | none => none
    | some .runtime => none
    | some _ => some .compileStage

/-- The first fault of a case: in its backends, in its outcome, in its tags. -/
def fault? (c : TestCase) (knownBackends : List String) : Option Fault :=
  match c.unsupportedBackends.find? fun b ↦ b ∉ knownBackends with
  | some b => some (.unknownBackend b)
  | none =>
    match c.outcomeFault? with
    | some fault => some fault
    | none => if c.isBenchmark && c.tags.isEmpty then some .noTags else none

end TestCase

/-- Writes each carriage return with a newline behind it as a newline, from left to right. -/
def unifyNewlines : List Char → List Char
  | '\r' :: '\n' :: cs => '\n' :: unifyNewlines cs
  | c :: cs => c :: unifyNewlines cs
  | [] => []

/-- The form in which printed texts are compared: newlines alike, and nothing blank at the end. -/
def normalizeOutput (text : String) : String :=
  String.ofList (Text.trimEnd (unifyNewlines text.toList))

end Offside
