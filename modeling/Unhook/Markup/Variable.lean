import Unhook.Markup.Lowering

/-!
# Markup variables

A variable of the module or of the component that holds markup is shown where a
hole holds its name, and where the component returns it; its declaration is then
removed. The value that is put in has its own holes filled first; a variable
that is shown within itself is left as it is there. Blocks are texts, in which
the holes of their references are replaced.

* `MarkupTable.resolve`: the value of a markup variable, with its holes filled;
* `Node.substitute`: a tree with its holes filled;
* `Component.inlineMarkup`: the step.
-/

namespace Unhook

/-- A statement without its label. -/
def Node.unlabeled : Node → Node
  | mk (.labeled _) _ [s] => s
  | s => s

/-- Markup variables with their values; of two with one name the later counts. -/
abbrev MarkupTable := List (Text × Node)

namespace MarkupTable

/-- The markup that a statement gives to names. -/
def ofStatement (s : Node) : MarkupTable :=
  match s.unlabeled with
  | .mk (.declaration _ _) _ ds =>
    ds.filterMap fun d => d.declarator?.filter fun (_, value) => value.isMarkupValue
  | .mk .expressionStatement _ [e] =>
    (e.assignment?.filter fun (_, value) => value.isMarkupValue).toList
  | _ => []

/-- The markup that some statements give to names. -/
def ofStatements (ss : List Node) : MarkupTable := ss.flatMap ofStatement

/-- The value of a name, which is the last one it is given. -/
def value? (t : MarkupTable) (name : Text) : Option Node := t.reverse.lookup name

end MarkupTable

namespace Node

/-- What is put in the place of a hole among markup: markup itself, or a hole
    that holds anything else. -/
def inHole (s : Span) (value : Node) : Node :=
  if value.isMarkup then value else mk .container s [value]

mutual

/-- A tree in which the holes that hold a name are filled with what `resolve`
    gives for it. -/
def substitute (resolve : Text → Option Node) : Node → Node
  | mk k s ps =>
    match k, ps with
    | .element, ps => mk .element s (substituteChildren resolve ps)
    | .fragment, ps => mk .fragment s (substituteChildren resolve ps)
    | .container, [e] =>
      match e.identifier?.bind resolve with
      | some value => mk .container s [value]
      | none => mk .container s [substitute resolve e]
    | k, ps => mk k s (substituteList resolve ps)

/-- Trees in which the holes that hold a name are filled. -/
def substituteList (resolve : Text → Option Node) : List Node → List Node
  | [] => []
  | n :: ns => substitute resolve n :: substituteList resolve ns

/-- Parts of markup in which the holes that hold a name are filled; those among
    the parts themselves are replaced. -/
def substituteChildren (resolve : Text → Option Node) : List Node → List Node
  | [] => []
  | n :: ns =>
    (match n with
      | mk .container s [e] =>
        match e.identifier?.bind resolve with
        | some value => inHole s value
        | none => mk .container s [substitute resolve e]
      | n => substitute resolve n) :: substituteChildren resolve ns

end

end Node

namespace MarkupTable

/-- The value of a markup variable with its holes filled, unless it is one of
    `active`, whose values it stands within. -/
def resolveWithin (t : MarkupTable) : (fuel : Nat) → (active : List Text) → Text → Option Node
  | 0, _, _ => none
  | fuel + 1, active, name =>
    if active.contains name then none
    else (t.value? name).map (Node.substitute (resolveWithin t fuel (name :: active)))

/-- The value of a markup variable with its holes filled. Values nest no deeper
    than there are variables. -/
def resolve (t : MarkupTable) (name : Text) : Option Node := t.resolveWithin (t.length + 1) [] name

/-- The text of the value of a markup variable. -/
def text? (t : MarkupTable) (name : Text) : Option Text :=
  (t.resolve name).map fun value =>
    if value.isPlaceholder then holeText value.printExpression else value.printExpression

/-- A block in which the holes of its references are replaced, one after the
    other. -/
def fillBlock (t : MarkupTable) (b : Block) : Block :=
  { b with text := b.references.foldl (fun text name =>
      match t.text? name with
      | some new => Text.replaceAll (holeText name) new text
      | none => text) b.text }

/-- A statement without the declarations of markup that it makes; nothing if
    nothing is left of it. -/
def withoutMarkup (s : Node) : Option Node :=
  let names := (ofStatement s).map (·.1)
  if names.isEmpty then some s
  else
    let kept (ds : List Node) : List Node := ds.filter fun
      | .mk (.declarator _) _ (.mk (.binding n) _ _ :: _) => !names.contains n
      | _ => true
    match s with
    | .mk (.declaration k d) sp ds =>
      if (kept ds).isEmpty then none else some (.mk (.declaration k d) sp (kept ds))
    | .mk (.labeled l) sl [.mk (.declaration k d) sp ds] =>
      if (kept ds).isEmpty then none
      else some (.mk (.labeled l) sl [.mk (.declaration k d) sp (kept ds)])
    | _ => none

end MarkupTable

namespace Component

/-- The markup variables of a component and its module. -/
def markupTable (c : Component) : MarkupTable :=
  MarkupTable.ofStatements c.module ++ MarkupTable.ofStatements c.body.dropLast

/-- A return statement with the markup in place of the variable it returns. -/
def fillReturn (t : MarkupTable) : Node → Node
  | .mk .returnStatement s [e] => .mk .returnStatement s [(e.identifier?.bind t.resolve).getD e]
  | n => n

/-- Statements with the markup in place of the variable that the last one
    returns. -/
def fillLast (t : MarkupTable) : List Node → List Node
  | [] => []
  | [s] => [fillReturn t s]
  | s :: ss => s :: fillLast t ss

/-- Shows markup variables where they are used, and removes them. -/
def inlineMarkup (c : Component) : Component :=
  let t := c.markupTable
  let names : List Text := t.map fun (name, _) => name
  { c with
    module := (Node.substituteList t.resolve c.module).filterMap MarkupTable.withoutMarkup
    body :=
      (Node.substituteList t.resolve (fillLast t c.body)).filterMap MarkupTable.withoutMarkup
    blocks := c.blocks.map t.fillBlock }.addMarkupNames names

end Component

end Unhook
