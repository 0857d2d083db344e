import Unhook.Diagnostic.Frame

/-!
# Diagnostics

A *rule* is something that every compiled component obeys; a *diagnostic* is
the report of a source that breaks one, and a *failure* is a diagnostic with
the kind of fault it is.

* `Rule.code` and `Rule.guarantee`: the code a rule is known by, and what it
  guarantees;
* `Diagnostic.located`: a diagnostic with its position in the source, and a
  frame if asked for;
* `Failure.display`: the one text that shows it all.
-/

namespace Unhook

/-- The rules that a source must obey. -/
inductive Rule
  /-- The source is a module. -/
  | parse
  /-- There is a default export, and it is a function. -/
  | noExport
  /-- The component returns markup once, at its end. -/
  | returnShape
  /-- No markup inside a loop. -/
  | markupInLoop
  /-- No markup inside a branch. -/
  | markupInBranch
  /-- No markup inside a function other than the component. -/
  | markupInFunction
  /-- An effect is given a function. -/
  | effectCallback
  /-- An effect returns its cleanup as a function. -/
  | effectCleanup
  /-- Effects stand at the top level of the component. -/
  | effectPlacement
  /-- There are no reducers. -/
  | reducer
  /-- State is declared as a pair. -/
  | stateShape
  /-- A memoized value is given by a function. -/
  | memoArgument
  /-- What is generated is itself a module. -/
  | template
  deriving DecidableEq, Repr

namespace Rule

/-- All the rules. -/
def all : List Rule :=
  [parse, noExport, returnShape, markupInLoop, markupInBranch, markupInFunction, effectCallback,
    effectCleanup, effectPlacement, reducer, stateShape, memoArgument, template]

/-- The code that a rule is known by. -/
def code : Rule → Text
  | parse => "J2S-PARSE-001"
  | noExport => "J2S-EXPORT-001"
  | returnShape => "J2S-EXPORT-002"
  | markupInLoop => "J2S-MARKUP-001"
  | markupInBranch => "J2S-MARKUP-002"
  | markupInFunction => "J2S-MARKUP-003"
  | effectCallback => "J2S-HOOK-001"
  | effectCleanup => "J2S-HOOK-002"
  | effectPlacement => "J2S-HOOK-003"
  | reducer => "J2S-UNSUPPORTED-001"
  | stateShape => "J2S-UNSUPPORTED-002"
  | memoArgument => "J2S-UNSUPPORTED-003"
  | template => "J2S-INTERNAL-001"

/-- What the output of a compilation can rely on by a rule. -/
def guarantee : Rule → Text
  | parse => "Input is a syntactically valid JSX module."
  | noExport => "Every compiled module default-exports exactly one component function."
  | returnShape => "A component ends in a single return statement whose value is markup."
  | markupInLoop => "Markup is never produced inside a loop; use `.map` in a markup hole."
  | markupInBranch =>
    "Markup is only branched through a ternary or `&&` placed directly in a markup hole."
  | markupInFunction =>
    "Markup only appears in the component itself or in a single-parameter `.map` callback."
  | effectCallback => "Effect hooks receive an inline function expression."
  | effectCleanup => "Effect cleanups are returned as functions."
  | effectPlacement => "Effect hooks are called as top-level statements of the component."
  | reducer => "Reducer-style state hooks are not compiled."
  | stateShape => "State hooks are destructured into a [value, setter] pair at declaration."
  | memoArgument => "Memoization hooks receive an inline function expression."
  | template => "Generated code always parses."

/-- The rule with a given code. -/
def ofCode? (c : Text) : Option Rule := all.find? (·.code = c)

end Rule

/-- What the rule of a code guarantees. -/
def guaranteeOf (code : Text) : Text :=
  match Rule.ofCode? code with
  | some r => r.guarantee
  | none => "Unknown rule."

/-- The report of a fault. -/
structure Diagnostic where
  code : Text
  message : Text
  guarantee : Text
  file : Option Text := none
  span : Span
  /-- Where the fault begins; line and column zero if it has no place. -/
  position : Position := ⟨0, 0⟩
  frame : Option Text := none
  deriving DecidableEq

namespace Diagnostic

/-- A diagnostic that has no place yet. -/
def ofCode (code message : Text) (span : Span) : Diagnostic :=
  { code, message, guarantee := guaranteeOf code, span }

/-- A diagnostic with its place in a source. -/
def located (d : Diagnostic) (source : Text) (file : Option Text) (withFrame : Bool) :
    Diagnostic :=
  { d with
    position := source.position d.span.start
    file
    frame := if withFrame then some (Frame.render source d.span d.message) else d.frame }

/-- The place of a diagnostic in brackets, if it has one. -/
def place (d : Diagnostic) : Text :=
  let spot := Text.ofNat d.position.line ++ ":" ++ Text.ofNat d.position.column
  match d.file with
  | some f => " (" ++ f ++ ":" ++ spot ++ ")"
  | none => if 0 < d.position.line then " (" ++ spot ++ ")" else []

/-- The text that shows a diagnostic. -/
def display (d : Diagnostic) : Text :=
  "[" ++ d.code ++ "] " ++ d.message ++ d.place ++
    match d.frame with
    | some f => "\n" ++ f
    | none => []

end Diagnostic

/-- The kinds of faults. -/
inductive Fault
  /-- The source is not a module. -/
  | parse
  /-- The component does not have the structure that a compiled one has. -/
  | structural
  /-- The component uses something that is not compiled. -/
  | unsupported
  deriving DecidableEq, Repr

/-- Why a compilation failed. -/
structure Failure where
  fault : Fault
  diagnostic : Diagnostic
  deriving DecidableEq

namespace Failure

/-- The text that shows a failure. -/
def display (f : Failure) : Text :=
  (match f.fault with
    | .parse => "Parse error: "
    | .structural => "Structural error: "
    | .unsupported => "Unsupported pattern: ") ++ f.diagnostic.display

end Failure

end Unhook
