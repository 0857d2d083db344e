import Unhook.Syntax.View

/-!
# Attributes

An attribute that sets the class has another name in the output, and one that
handles an event is a directive with the name of the event in lower case.

* `Attribute.rename`: the new name of an attribute;
* `Node.renameAttributes`: a tree with the attributes renamed.
-/

namespace Unhook

namespace Attribute

/-- Whether a letter is one of the basic alphabet when its case is ignored; two
    letters outside it are, the long s and the Kelvin sign. -/
def isEventLetter (c : Char) : Bool :=
  ('a' ≤ c && c ≤ 'z') || ('A' ≤ c && c ≤ 'Z') || c == '\u017f' || c == '\u212a'

/-- The lower case of such a letter. -/
def lowerCase (c : Char) : Char := if c = '\u212a' then 'k' else c.toLower

/-- The event that an attribute handles. -/
def event? : Text → Option Text
  | o :: n :: c :: t =>
    if lowerCase o = 'o' ∧ lowerCase n = 'n' ∧ (c :: t).all isEventLetter then
      some ((c :: t).map lowerCase)
    else none
  | _ => none

/-- The new name of an attribute without a namespace, with its namespace. -/
def rename (name : Text) : Option Text × Text :=
  if name = "className" then (none, "class")
  else match event? name with
    | some e => (some "on", e)
    | none => (none, name)

end Attribute

namespace Node

mutual

/-- A tree in which attributes have the names that they have in the output. -/
def renameAttributes : Node → Node
  | mk (.attribute none name) s ps =>
    let (space, name) := Attribute.rename name
    mk (.attribute space name) s (renameAttributesList ps)
  | mk k s ps => mk k s (renameAttributesList ps)

/-- Trees in which attributes have the names that they have in the output. -/
def renameAttributesList : List Node → List Node
  | [] => []
  | n :: ns => renameAttributes n :: renameAttributesList ns

end

end Node

end Unhook
