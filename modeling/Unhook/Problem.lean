import Unhook.Diagnostic.Basic
import Unhook.Options

/-!
# Problems

A *problem* is why a source cannot be compiled: a cause, and the stretch of the
source that shows it. The rule that a cause breaks, the kind of fault it is and
its wording are each said in one place.

* `Problem.failure`: the failure that a problem is reported as.
-/

namespace Unhook

/-- Why a source cannot be compiled. -/
inductive Cause
  /-- The source is not a module. -/
  | unreadable
  /-- There is no default export that is a function. -/
  | noExport
  /-- The exported function is only declared. -/
  | noBody
  /-- The last statement of the component is no return. -/
  | noReturn
  /-- What the component returns is no markup. -/
  | noMarkup
  /-- The component returns in more than one place. -/
  | manyReturns
  | markupInLoop
  | markupInBranch
  | markupInFunction
  /-- An effect is not given a function. -/
  | effectCallback (hook : Text)
  /-- What an effect returns is no function. -/
  | effectCleanup
  /-- An effect is not a statement of the component. -/
  | effectPlacement
  | reducer
  /-- State is not declared as a pair. -/
  | stateShape
  /-- A memoized value is not given by a function. -/
  | memoArgument
  /-- Something that was generated cannot be read. -/
  | template (text : Text)
  deriving DecidableEq

namespace Cause

/-- The rule that is broken. -/
def rule : Cause → Rule
  | unreadable => .parse
  | noExport | noBody => .noExport
  | noReturn | noMarkup | manyReturns => .returnShape
  | markupInLoop => .markupInLoop
  | markupInBranch => .markupInBranch
  | markupInFunction => .markupInFunction
  | effectCallback _ => .effectCallback
  | effectCleanup => .effectCleanup
  | effectPlacement => .effectPlacement
  | reducer => .reducer
  | stateShape => .stateShape
  | memoArgument => .memoArgument
  | template _ => .template

/-- The kind of fault. -/
def fault : Cause → Fault
  | unreadable => .parse
  | reducer | stateShape | memoArgument => .unsupported
  | _ => .structural

/-- The wording. -/
def message : Cause → Text
  | unreadable => "The source is not a module"
  | noExport => "Input file has to export a function that returns JSX"
  | noBody => "The exported function has no body"
  | noReturn => "The component function must end with a return statement"
  | noMarkup => "The component function must return JSX"
  | manyReturns => "The component may only return once, at the end of its body"
  | markupInLoop => "JSX inside loops cannot be compiled"
  | markupInBranch => "JSX inside conditionals cannot be compiled"
  | markupInFunction =>
    "It seems like you have a JSX element inside a function that is not the exported function. " ++
      "This cannot be compiled."
  | effectCallback hook =>
    "The first argument passed to " ++ hook ++ " must be a function expression."
  | effectCleanup => "Cleanup function must be returned as a function expression."
  | effectPlacement => "Effect hooks must be called at the top level of the component body"
  | reducer => "useReducer is not supported yet"
  | stateShape => "useState must be destructured into a [value, setter] pair"
  | memoArgument =>
    "The first argument passed to useMemo must be a function expression, " ++
      "not a reference to a function."
  | template text => "Generated code failed to parse: `" ++ text ++ "`"

end Cause

/-- Why a source cannot be compiled, and where it shows. -/
structure Problem where
  cause : Cause
  span : Span := Span.zero
  deriving DecidableEq

namespace Problem

/-- The report of a problem. -/
def diagnostic (p : Problem) (source : Text) (options : Options) : Diagnostic :=
  let d := Diagnostic.ofCode p.cause.rule.code p.cause.message p.span
  match p.cause with
  | .unreadable => { d with file := options.filename }
  | .template _ => d
  | _ => d.located source options.filename options.codeFrames

/-- The failure that a problem is reported as. -/
def failure (p : Problem) (source : Text) (options : Options) : Failure where
  fault := p.cause.fault
  diagnostic := p.diagnostic source options

end Problem

end Unhook
