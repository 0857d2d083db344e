import Unhook.Markup.Attribute
import Unhook.Markup.Each

/-!
# Markup in its output form

Attributes get the names of the output, lists become blocks, and so do choices.
The variables that hold markup are looked for before each of the last two, as a
list that a variable holds has become a placeholder in between.

* `Node.markupVariables`: the names that a tree gives markup to;
* `Component.lowerMarkup`: the step.
-/

namespace Unhook

namespace Node

/-- The name that a node by itself gives markup to. -/
def ownMarkupVariable? (n : Node) : Option Text :=
  match n.declarator?.or n.assignment? with
  | some (x, value) => if value.isMarkupValue then some x else none
  | none => none

mutual

/-- The names that a tree gives markup to, by declaration or assignment. -/
def markupVariables : Node → List Text
  | mk k s ps => (ownMarkupVariable? (mk k s ps)).toList ++ markupVariablesList ps

/-- The names that some trees give markup to. -/
def markupVariablesList : List Node → List Text
  | [] => []
  | n :: ns => markupVariables n ++ markupVariablesList ns

end

end Node

namespace Component

/-- Adds names of variables that hold markup. -/
def addMarkupNames (c : Component) (names : List Text) : Component :=
  { c with markupNames := names.foldl (fun ms n => insertNew n ms) c.markupNames }

/-- Looks for the variables that hold markup. -/
def findMarkupNames (c : Component) : Component :=
  c.addMarkupNames (Node.markupVariablesList (c.module ++ c.body))

/-- Gives attributes the names of the output. -/
def renameAttributes (c : Component) : Component :=
  { c with
    module := Node.renameAttributesList c.module
    body := Node.renameAttributesList c.body }

/-- Makes blocks of lists. -/
def lowerLists (c : Component) : Component :=
  let (module, blocks) := Node.lowerListsList c.markupNames c.module c.blocks
  let (body, blocks) := Node.lowerListsList c.markupNames c.body blocks
  { c with module, body, blocks }

/-- Makes blocks of choices. -/
def lowerChoices (c : Component) : Component :=
  let (module, blocks) := Node.lowerChoicesList c.markupNames false c.module c.blocks
  let (body, blocks) := Node.lowerChoicesList c.markupNames false c.body blocks
  { c with module, body, blocks }

/-- Gives the markup of a component its output form. -/
def lowerMarkup (c : Component) : Component :=
  c.renameAttributes.findMarkupNames.lowerLists.findMarkupNames.lowerChoices

end Component

end Unhook
