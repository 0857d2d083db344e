import Unhook.Component.Basic
import Unhook.Problem

/-!
# The exported component

The component of a module is what its default export resolves to: a function,
or a name that some statement of the module gives a function, possibly through
other names, wrappers and assignments. The statements on the way are taken out
of the module. A module in which names refer to each other in a circle has no
answer: the search runs out of whatever fuel it is given.

* `Export.resolve`: the function that the default export stands for;
* `Component.ofModule`: the component of a module, if it ends in its only
  return and that returns markup or a name.
-/

namespace Unhook

/-- The function that an export stands for. -/
structure Export where
  function : Node
  name : Option Text
  /-- The statements it was found through, the innermost first. -/
  steps : List Span

namespace Export

/-- The outcome of a search for a function. -/
inductive Search
  | found (e : Export)
  | nothing
  /-- The search was not over when its fuel was used up. -/
  | endless

/-- Gives what was found a name, unless it has one. -/
def Search.orName (name : Option Text) : Search → Search
  | found e => found { e with name := e.name.or name }
  | s => s

/-- The function that an expression stands for, when `lookup` says what names
    stand for. -/
def ofExpression (lookup : Text → Search) : Node → Search
  | .mk (.call ⟨_, false⟩ _) _ (callee :: _ :: a :: _) =>
    if callee.calleeName? = some Hook.component.name ∧ a.kind ≠ .spread then
      ofExpression lookup a
    else .nothing
  | .mk (.identifier n) _ _ => lookup n
  | .mk (.assign _) _ [target, value] => (ofExpression lookup value).orName target.target?
  | .mk (.function form) s (id :: ps) =>
    .found { function := .mk (.function form) s (id :: ps), name := id.binding?, steps := [] }
  | .mk (.arrow f) s ps => .found { function := .mk (.arrow f) s ps, name := none, steps := [] }
  | _ => .nothing

/-- What a statement gives a name, in order. -/
def values (name : Text) : Node → List Node
  | .mk (.function form) s (id :: ps) =>
    if id.binding? = some name then [.mk (.function form) s (id :: ps)] else []
  | .mk (.declaration _ _) _ ds =>
    ds.filterMap fun d => match d.declarator? with
      | some (n, value) => if n = name then some value else none
      | none => none
  | .mk .expressionStatement _ [e] =>
    match e.assignment? with
    | some (n, value) => if n = name then [value] else []
    | none => []
  | _ => []

/-- What the statements of a module give a name, each with the stretch of the
    statement, in order. -/
def definitions (module : List Node) (name : Text) : List (Node × Span) :=
  module.flatMap fun s => (values name s).map fun v => (v, s.span)

/-- The first of some definitions of a name that stands for a function. -/
def firstOf (resolve : Node → Search) (name : Text) : List (Node × Span) → Search
  | [] => .nothing
  | (value, s) :: rest =>
    match resolve value with
    | .found e => .found { e with name := some name, steps := e.steps ++ [s] }
    | .nothing => firstOf resolve name rest
    | .endless => .endless

/-- The function that a name stands for. -/
def ofName (module : List Node) : (fuel : Nat) → Text → Search
  | 0, _ => .endless
  | fuel + 1, name =>
    firstOf (ofExpression (ofName module fuel)) name (definitions module name)

/-- The function that the default export stands for. -/
def resolve (module : List Node) (fuel : Nat) : Search :=
  match module.find? (·.kind = .exportDefault) with
  | some (.mk _ s (d :: _)) =>
    match ofExpression (ofName module fuel) d with
    | .found e => .found { e with steps := e.steps ++ [s] }
    | outcome => outcome
  | _ => .nothing

/-- How many names a search can go through before it repeats one: no more than
    the module has statements and parts of statements. -/
def fuel (module : List Node) : Nat := module.foldl (fun n s => n + s.parts.length + 1) 1

end Export

namespace Component

mutual

/-- The first return of a tree, outside functions and classes, that is not the
    one at `last`. -/
def strayReturn? (last : Span) : Node → Option Span
  | .mk k s ps =>
    match k with
    | .function _ | .arrow _ | .class _ => none
    | .returnStatement => if s ≠ last then some s else strayReturnList? last ps
    | _ => strayReturnList? last ps

/-- The first return of some trees, outside functions and classes, that is not
    the one at `last`. -/
def strayReturnList? (last : Span) : List Node → Option Span
  | [] => none
  | n :: ns => (strayReturn? last n).or (strayReturnList? last ns)

end

/-- Whether a component may return an expression. -/
def isReturnable (e : Node) : Bool := e.isMarkup || e.identifier?.isSome

/-- What is wrong with the way that a component returns. -/
def returnProblem? (c : Component) : Option Problem :=
  match c.body.getLast? with
  | none => some ⟨.noReturn, c.span⟩
  | some (.mk .returnStatement s es) =>
    match returnValue? (.mk .returnStatement s es) with
    | none => some ⟨.noMarkup, s⟩
    | some e =>
      if isReturnable e then (strayReturnList? s c.body).map (⟨.manyReturns, ·⟩)
      else some ⟨.noMarkup, e.span⟩
  | some last => some ⟨.noReturn, last.span⟩

/-- The statements of a function; a concise body is returned. -/
def bodyOf (f : Node) : List Node :=
  match f.body.kind with
  | .functionBody => f.body.statements
  | _ => [.mk .returnStatement f.body.span [f.body]]

/-- The component that an export stands for, within its module. -/
def ofExport (module : List Node) (e : Export) : Component where
  name := e.name
  span := e.function.span
  params := e.function.parameters
  exportSteps := e.steps
  module := module.filter fun s => !e.steps.contains s.span
  body := bodyOf e.function

/-- The component of a module of the given length. -/
def ofModule (length : Nat) (module : List Node) : Except Problem Component :=
  match Export.resolve module (Export.fuel module) with
  | .found e =>
    if e.function.body.isAbsent then .error ⟨.noBody, e.function.span⟩
    else
      let c := ofExport module e
      match c.returnProblem? with
      | some p => .error p
      | none => .ok c
  | _ => .error ⟨.noExport, ⟨0, length⟩⟩

end Component

end Unhook
