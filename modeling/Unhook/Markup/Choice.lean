import Unhook.Markup.Block
import Unhook.Printer.Basic

/-!
# Choices

A hole that chooses between pieces of markup, by a conditional or by `&&`,
becomes a block: the test, and what is shown when it holds or fails. Choices
nest. What is not markup is shown as a hole, and `null` and `undefined` as
nothing.

* `Choice.isLowerable`: whether an expression chooses between markup;
* `Choice.render`: the text of a choice, with the markup variables it shows;
* `Node.lowerChoices`: a tree in which such holes hold placeholders.
-/

namespace Unhook

namespace Choice

/-- Whether an expression shows markup by itself, when `names` hold markup. -/
def shows (names : List Text) (n : Node) : Bool :=
  match n.identifier? with
  | some x => (Block.index? x).isSome || names.contains x
  | none => n.isMarkup

/-- Whether an expression chooses between markup. -/
def isLowerable (names : List Text) : Node → Bool
  | .mk .conditional _ [_, a, b] =>
    shows names a || shows names b || isLowerable names a || isLowerable names b
  | .mk (.binary .and) _ [_, a] => shows names a || isLowerable names a
  | _ => false

/-- What is shown for an expression that does not choose, and the markup
    variables among what has been shown. -/
def leaf (names : List Text) (n : Node) (refs : List Text) : Text × List Text :=
  match n.kind with
  | .null => ([], refs)
  | .identifier x =>
    if x = "undefined" then ([], refs)
    else (holeText x, if names.contains x then insertNew x refs else refs)
  | .element | .fragment => (n.printExpression, refs)
  | _ => (holeText n.printExpression, refs)

/-- The text of a choice with an alternative. -/
def ifElse (test a b : Text) : Text :=
  "\x7b#if " ++ test ++ "\x7d\n" ++ a ++ "\n\x7b:else\x7d\n" ++ b ++ "\n\x7b/if\x7d\n"

/-- The text of a choice without one. -/
def ifOnly (test a : Text) : Text := "\x7b#if " ++ test ++ "\x7d\n" ++ a ++ "\n\x7b/if\x7d"

/-- The text that shows an expression, and the markup variables among what has
    been shown. -/
def render (names : List Text) : Node → List Text → Text × List Text
  | .mk .conditional s [t, a, b], refs =>
    if isLowerable names (.mk .conditional s [t, a, b]) then
      let (x, refs) := render names a refs
      let (y, refs) := render names b refs
      (ifElse t.printExpression x y, refs)
    else leaf names (.mk .conditional s [t, a, b]) refs
  | .mk (.binary .and) s [t, a], refs =>
    if isLowerable names (.mk (.binary .and) s [t, a]) then
      let (x, refs) := render names a refs
      (ifOnly t.printExpression x, refs)
    else leaf names (.mk (.binary .and) s [t, a]) refs
  | n, refs => leaf names n refs

/-- The block of a choice. -/
def block (names : List Text) (n : Node) : Block :=
  let (text, references) := render names n []
  { text, references }

end Choice

namespace Node

mutual

/-- A tree in which the holes that choose between markup, outside attributes,
    hold placeholders; what is inside a hole comes first. -/
def lowerChoices (names : List Text) (inAttribute : Bool) :
    Node → List Block → Node × List Block
  | mk k s ps, bs =>
    let inAttribute := inAttribute || match k with
      | .attribute _ _ => true
      | _ => false
    let (ps, bs) := lowerChoicesList names inAttribute ps bs
    match k, ps with
    | .container, [e] =>
      if !inAttribute && Choice.isLowerable names e then
        let (e, bs) := (Choice.block names e).place bs
        (mk .container s [e], bs)
      else (mk .container s [e], bs)
    | k, ps => (mk k s ps, bs)

/-- Trees in which the holes that choose between markup hold placeholders. -/
def lowerChoicesList (names : List Text) (inAttribute : Bool) :
    List Node → List Block → List Node × List Block
  | [], bs => ([], bs)
  | n :: ns, bs =>
    let (n, bs) := lowerChoices names inAttribute n bs
    let (ns, bs) := lowerChoicesList names inAttribute ns bs
    (n :: ns, bs)

end

end Node

end Unhook
