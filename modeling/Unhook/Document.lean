import Unhook.Markup.Variable
import Unhook.Options
import Unhook.Template

/-!
# Documents

A *document* is the output: a script of items and the markup below it. The
items are the import of lifecycle functions, what is left of the module, the
props, the statements of the component without its return, and the setters that
have to be written out, in this order.

* `Component.script`: the items;
* `Component.markup`: the markup;
* `Document.code`: the document as one text.
-/

namespace Unhook

/-- A compiled component. -/
structure Document where
  /-- The items of the script, without indentation. -/
  script : List Text
  markup : Text
  /-- The whole text. -/
  code : Text
  props : List Text
  /-- The names of the values that are state. -/
  state : List Text
  lifecycleImports : List Text
  synthesizedSetters : List Text
  deriving DecidableEq

namespace Document

/-- The import of lifecycle functions. -/
def lifecycleImport? (runtimeModule : Text) (names : List Text) : Option Text :=
  if names.isEmpty then none
  else some ("import \x7b " ++ Text.join ", " names ++ " \x7d from \"" ++ runtimeModule ++ "\";")

/-- The item that a statement of the module becomes: imports of the framework
    and exports of names are left out, and declarations are no longer
    exported. -/
def moduleItem? (s : Node) : Option Text :=
  match s.kind with
  | .importDeclaration _ _ source =>
    if source.path = frameworkModule then none else some s.printStatement
  | .exportList _ _ _ | .exportAll _ _ _ | .exportDefault => none
  | .exportDeclaration =>
    let t := s.printStatement
    some ((Text.after? "export " t).getD t)
  | _ => some s.printStatement

/-- Whether a prop is one of the objects that hold props. -/
def isInternal (name : Text) : Bool := Text.startsWith name "$$"

/-- The item of a prop. -/
def propItem (f : Field) : Text :=
  "export let " ++ f.name ++
    (match f.default with
      | some d => " = " ++ d
      | none => []) ++ ";"

/-- The name of the parameter of a setter, which is not that of its value. -/
def setterParam (value : Text) : Text := if value = "value" then "nextValue" else "value"

/-- The template of a setter. -/
def setterTemplate (setter value : Text) : Text :=
  "function " ++ setter ++ "(" ++ setterParam value ++ ") \x7b " ++ value ++ " = " ++
    setterParam value ++ "; \x7d"

/-- The items of some setters; one that sets nothing has none. -/
def setterItems (typescript : Bool) (c : Component) : List Text → Except Problem (List Text)
  | [] => .ok []
  | setter :: rest =>
    match c.setterValue? setter with
    | none => setterItems typescript c rest
    | some value => do
      let s ← Template.read typescript (setterTemplate setter value)
      let items ← setterItems typescript c rest
      return s.printStatement :: items

/-- The forms in which the tag of a fragment is written. -/
def fragmentTags : List String :=
  ["<>", "</>", "<Fragment>", "</Fragment>", "<React.Fragment>", "</React.Fragment>"]

/-- The tag of a fragment that a text begins with: its length, to be replaced
    by nothing. -/
def fragmentTag? (t : Text) : Option (Nat × Text) :=
  (fragmentTags.find? fun tag => t.startsWith tag.toList).map fun tag => (tag.length, [])

/-- A text without the tags of fragments. -/
def stripFragments (t : Text) : Text := Text.replaceMatches fragmentTag? 0 t

/-- An item with every line indented that is not empty. -/
def indentItem (indent item : Text) : Text :=
  Text.join "\n" (item.lines.map fun l => if l.isEmpty then [] else indent ++ l)

/-- The text of a document. -/
def layout (indent : Text) (script : List Text) (markup : Text) : Text :=
  "<script>\n" ++ (script.map fun item => indentItem indent item ++ "\n\n").flatten ++
    "</script>\n\n" ++ markup

end Document

namespace Component

/-- The items of the script. -/
def script (options : Options) (c : Component) : Except Problem (List Text) := do
  let setters ← Document.setterItems options.typescript c c.synthesized
  return (Document.lifecycleImport? options.runtimeModule c.lifecycle).toList ++
    c.module.filterMap Document.moduleItem? ++
    (c.fields.filter fun f => !Document.isInternal f.name).map Document.propItem ++
    c.body.dropLast.map Node.printStatement ++
    setters

/-- The markup that the component returns. -/
def markup (c : Component) : Except Problem Text :=
  match c.returned? with
  | none => .error ⟨.noMarkup, c.span⟩
  | some e =>
    if e.isMarkup then .ok (Document.stripFragments (Block.expand c.blocks e.printExpression))
    else .error ⟨.noMarkup, e.span⟩

/-- The document of a component that has passed through all steps. -/
def document (options : Options) (c : Component) : Except Problem Document := do
  let script ← c.script options
  let markup ← c.markup
  return {
    script
    markup
    code := Document.layout options.indent script markup
    props := (c.fields.map Field.name).filter (!Document.isInternal ·)
    state := c.cells.map Cell.value
    lifecycleImports := c.lifecycle
    synthesizedSetters := c.synthesized }

end Component

end Unhook
