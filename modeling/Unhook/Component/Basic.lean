import Unhook.Syntax.View

/-!
# Components

A *component* is what is compiled: the exported function, taken out of its
module, and what has been found out about it so far. Compilation is a sequence
of steps, each of which takes a component and gives the next one, so that every
field below begins empty and is filled by the step that is about it.

* `Component.returned?`: the value of the last statement of the body, which is
  the return.
-/

namespace Unhook

/-- How a component takes its props. -/
inductive ParamForm
  /-- Not at all. -/
  | none
  /-- By a pattern with the given keys. -/
  | destructured (names : List Text)
  /-- As one object. -/
  | wholeObject (param : Text)
  deriving DecidableEq

/-- A prop: its name, and the expression that is its default. -/
structure Field where
  name : Text
  default : Option Text
  deriving DecidableEq

/-- A piece of state: a value and the function that sets it. -/
structure Cell where
  value : Text
  setter : Text
  /-- The initial value, as it is written. -/
  initializer : Option Text
  /-- Which statement of the body declares it. -/
  declaration : Nat
  deriving DecidableEq

/-- A piece of output markup that is kept as text. Its *references* are the
    markup variables whose holes in the text are still to be replaced. -/
structure Block where
  text : Text
  references : List Text
  deriving DecidableEq

/-- A component on its way through compilation. -/
structure Component where
  name : Option Text
  span : Span
  /-- The parameters of the function. -/
  params : List Node
  /-- The stretches of the statements that the export was resolved through. -/
  exportSteps : List Span
  /-- The statements of the module around the function. -/
  module : List Node
  /-- The statements of the function; the last one is the return. -/
  body : List Node
  form : ParamForm := .none
  fields : List Field := []
  cells : List Cell := []
  /-- Setters with their values, the latest first. -/
  setters : List (Text × Text) := []
  /-- The statements that have been made reactive, or cannot be. -/
  settled : List Nat := []
  /-- The statements that must not be made reactive. -/
  exempt : List Nat := []
  /-- The names whose changes have to be followed. -/
  tracked : List Text := []
  /-- The names of variables that hold markup. -/
  markupNames : List Text := []
  blocks : List Block := []
  /-- The lifecycle functions in use, in order of their first use. -/
  lifecycle : List Text := []
  /-- The setters that are used other than by calling them. -/
  synthesized : List Text := []

namespace Component

/-- The position of the return in the body. -/
def returnIndex (c : Component) : Nat := c.body.length - 1

/-- What a return statement returns. -/
def returnValue? : Node → Option Node
  | .mk .returnStatement _ [e] => e.present?
  | _ => none

/-- What the component returns. -/
def returned? (c : Component) : Option Node := c.body.getLast?.bind returnValue?

/-- The value that a setter sets. -/
def setterValue? (c : Component) (setter : Text) : Option Text := c.setters.lookup setter

/-- Adds a prop, unless there is one of its name. -/
def addField (c : Component) (f : Field) : Component :=
  if c.fields.any (·.name = f.name) then c else { c with fields := c.fields ++ [f] }

/-- Follows the changes of some names. -/
def track (c : Component) (names : List Text) : Component :=
  { c with tracked := names.foldl (fun ts n => insertNew n ts) c.tracked }

/-- Imports a lifecycle function. -/
def useLifecycle (c : Component) (name : Text) : Component :=
  { c with lifecycle := insertNew name c.lifecycle }

end Component

end Unhook
