import Unhook.Component.Reactive

/-!
# Props

The props of a component are what its first parameter takes apart, or, if that
is a plain name, what is read from it anywhere in the body. In the first case a
prop that is bound to another name or taken apart further is followed by an
*alias*, a reactive assignment at the head of the body; in the second case every
reference to the parameter's name becomes one to the object of all props.

* `Node.rename`: every reference to one name made one to another;
* `Node.fieldsRead`: the properties that are read from a name;
* `Component.bindProps`: the step.
-/

namespace Unhook

/-- The name of the object that holds all props. -/
def propsObject : Text := "$$props"

/-- The name of the object that holds the props not declared. -/
def restProps : Text := "$$restProps"

/-- A kind of reference, to `new` if it refers to `old`. -/
def Kind.rename (old new : Text) (k : Kind) : Kind :=
  let renamed (n : Text) : Text := if n = old then new else n
  match k with
  | .identifier n => .identifier (renamed n)
  | .target n => .target (renamed n)
  | .tagRef n => .tagRef (renamed n)
  | .typeName n => .typeName (renamed n)
  | k => k

namespace Node

mutual

/-- A tree in which every reference to `old` refers to `new`. -/
def rename (old new : Text) : Node → Node
  | mk k s ps => mk (k.rename old new) s (renameList old new ps)

/-- Trees in which every reference to `old` refers to `new`. -/
def renameList (old new : Text) : List Node → List Node
  | [] => []
  | n :: ns => rename old new n :: renameList old new ns

end

/-- The names of the properties that an object pattern takes, as far as they are
    known. -/
def keyNames (pattern : Node) : List Text :=
  match pattern with
  | mk .objectPattern _ ps => ps.filterMap fun
      | mk (.patternProperty _ _) _ (k :: _) => k.keyName?
      | _ => none
  | _ => []

/-- The properties that a node by itself reads from `object`. -/
def ownFields (object : Text) : Node → List Text
  | mk (.declarator _) _ [p, _, init] =>
    if init.identifier? = some object then p.keyNames else []
  | mk (.member _ n) _ [o] => if o.identifier? = some object then [n] else []
  | _ => []

mutual

/-- The properties that a tree reads from `object`, in reading order. -/
def fieldsRead (object : Text) : Node → List Text
  | mk k s ps => ownFields object (mk k s ps) ++ fieldsReadList object ps

/-- The properties that some trees read from `object`, in reading order. -/
def fieldsReadList (object : Text) : List Node → List Text
  | [] => []
  | n :: ns => fieldsRead object n ++ fieldsReadList object ns

end

end Node

namespace Component

/-- How parameters take the props. -/
def formOf (params : List Node) : ParamForm :=
  match params.head?.map Node.pattern with
  | some (.mk .objectPattern s ps) => .destructured (Node.keyNames (.mk .objectPattern s ps))
  | some (.mk (.binding n) _ _) => .wholeObject n
  | _ => .none

/-- A pattern without its default, and the default as it is written. -/
def splitDefault : Node → Node × Option Text
  | .mk .defaultPattern _ [p, d] => (p, some d.printExpression)
  | p => (p, none)

/-- The template of the alias for a prop, if it needs one: its key is pasted as
    it is. -/
def aliasTemplate? (key : Text) (pattern : Node) : Option Text :=
  match pattern.binding? with
  | some n => if n = key then none else some ("$: " ++ n ++ " = " ++ key ++ ";")
  | none => some ("$: (" ++ pattern.printPattern ++ " = " ++ key ++ ");")

/-- Adds what one part of the parameter's pattern takes, and its alias. -/
def bindProperty (typescript : Bool) (c : Component) :
    Node → Except Problem (Component × Option Node)
  | .mk (.patternProperty _ _) _ [k, value] =>
    match k.keyName? with
    | none => .ok (c, none)
    | some key =>
      let (pattern, default) := splitDefault value
      let c := (c.addField ⟨key, default⟩).track [key]
      match aliasTemplate? key pattern with
      | none => .ok (c, none)
      | some t => do return (c.track pattern.names, some (← Template.read typescript t))
  | .mk .rest _ ps =>
    match (Node.namesList ps).head? with
    | none => .ok (c, none)
    | some n => do
      let a ← Template.read typescript ("$: " ++ n ++ " = " ++ restProps ++ ";")
      return (c.track [n], some a)
  | _ => .ok (c, none)

/-- Adds what the parts of the parameter's pattern take, and their aliases. -/
def bindProperties (typescript : Bool) :
    List Node → Component → Except Problem (Component × List Node)
  | [], c => .ok (c, [])
  | p :: ps, c => do
    let (c, a) ← bindProperty typescript c p
    let (c, as) ← bindProperties typescript ps c
    return (c, a.toList ++ as)

/-- The props of a parameter that is taken apart. -/
def bindPattern (typescript : Bool) (parts : List Node) (c : Component) :
    Except Problem Component := do
  let (c, aliases) ← bindProperties typescript parts c
  return { c with
    body := aliases ++ c.body
    settled := List.range aliases.length }

/-- The props of a parameter that is one object. -/
def bindObject (param : Text) (c : Component) : Component :=
  let body := Node.renameList param propsObject c.body
  let c := (Node.fieldsReadList propsObject body).foldl
    (fun c n => c.addField ⟨n, none⟩) { c with body }
  c.track [propsObject]

/-- Finds the props of a component and makes what reads them reactive. -/
def bindProps (typescript : Bool) (c : Component) : Except Problem Component := do
  let c := { c with form := formOf c.params }
  let c ← match c.params.head?.map Node.pattern with
    | some (.mk .objectPattern _ ps) => c.bindPattern typescript ps
    | some (.mk (.binding n) _ _) => pure (c.bindObject n)
    | _ => pure c
  let (c, _) ← c.propagate typescript
  return c

end Component

end Unhook
