import Unhook.Grammar.Module
import Unhook.Problem

/-!
# Templates

A *template* is the text of a statement that the compiler writes itself: it is
read like any source, and a template that cannot be read is a problem of its
own. A template may have a *hole*, a name that stands for an expression; the
first hole in reading order is filled. Assignment targets are no holes.

* `Template.read`: the first statement of a template;
* `Template.readWith`: the same with the hole filled;
* `reactive`: a statement under the label that makes it run again.
-/

namespace Unhook

namespace Template

/-- The name that stands for the expression to be filled in. -/
def hole : Text := "__hole0__"

/-- Whether a name is a hole; its number may have leading zeros. -/
def isHole (name : Text) : Bool := Text.numberBetween? "__hole" "__" name = some 0

mutual

/-- Fills the first hole of a tree, and says whether there was one. -/
def fill (value : Node) : Node → Node × Bool
  | .mk (.identifier n) s ps =>
    if isHole n then (value, true) else (.mk (.identifier n) s ps, false)
  | .mk k s ps =>
    let (ps, filled) := fillList value ps
    (.mk k s ps, filled)

/-- Fills the first hole of some trees, and says whether there was one. -/
def fillList (value : Node) : List Node → List Node × Bool
  | [] => ([], false)
  | n :: ns =>
    match fill value n with
    | (n, true) => (n :: ns, true)
    | (n, false) =>
      let (ns, filled) := fillList value ns
      (n :: ns, filled)

end

/-- The first statement of a template. -/
def read (typescript : Bool) (text : Text) : Except Problem Node :=
  match Grammar.parseModule? typescript text with
  | some (s :: _) => .ok s
  | _ => .error { cause := .template text }

/-- The first statement of a template, with its hole filled. -/
def readWith (typescript : Bool) (text : Text) (value : Node) : Except Problem Node :=
  (read typescript text).map fun s => (fill value s).1

end Template

/-- The label of statements that run again when what they read changes. -/
def reactiveLabel : Text := "$"

/-- A statement under the label that makes it run again. -/
def reactive (s : Node) : Node := .mk (.labeled reactiveLabel) s.span [s]

end Unhook
