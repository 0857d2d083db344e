import Unhook.Component.Basic
import Unhook.Printer.Basic
import Unhook.Template

/-!
# Reactive statements

A statement of the component that reads a *tracked* name must run again when
that name changes, so it is put under the reactive label; a declaration becomes
an assignment first. The names that such a statement declares or assigns then
change too and are tracked in turn, until nothing more is found.

What a statement reads is what it refers to while it runs: functions and
classes are not entered, neither are statements under a label, and a hook is
read only for what it leaves behind, which for a memoized value is the body of
its function.

* `Node.reads`: whether a statement reads one of some names;
* `Component.settle`: makes one statement reactive;
* `Component.propagate`: makes every statement reactive that has to be.
-/

namespace Unhook

namespace Node

mutual

/-- Whether a node refers to one of `names` while it runs. -/
def reads (names : List Text) : Node → Bool
  | mk k s ps =>
    match k with
    | .function _ | .arrow _ | .class _ | .labeled _ => false
    | .call _ _ =>
      match hook? (mk k s ps) with
      | some .memo => readsMemo names ps
      | some .component | none => readsList names ps
      | some _ => false
    | k =>
      match k.reference? with
      | some n => names.contains n
      | none => readsList names ps

/-- Whether one of some nodes refers to one of `names` while it runs. -/
def readsList (names : List Text) : List Node → Bool
  | [] => false
  | n :: ns => reads names n || readsList names ns

/-- Whether what is left of a call for a memoized value, of which the parts are
    given, refers to one of `names`. -/
def readsMemo (names : List Text) : List Node → Bool
  | _ :: _ :: a :: _ =>
    match a with
    | mk (.arrow _) _ [_, _, _, b] => reads names b
    | mk (.function _) _ [_, _, _, _, b] => reads names b
    | mk .spread _ _ => false
    | a => reads names a
  | _ => false

end

/-- Whether a statement is made reactive by the label alone. -/
def isWrappable (s : Node) : Bool :=
  match s.kind with
  | .expressionStatement | .ifStatement | .forStatement | .forIn | .forOf _ | .whileStatement
  | .doWhile | .block | .switch | .tryStatement => true
  | _ => false

/-- The name that a statement assigns to. -/
def assignedName? : Node → Option Text
  | mk .expressionStatement _ [e] => e.assignment?.map (·.1)
  | _ => none

end Node

/-- The template of the assignment that a declaration becomes. -/
def assignmentTemplate (pattern : Node) : Text :=
  let t := pattern.printPattern ++ " = " ++ Template.hole
  match pattern.kind with
  | .objectPattern => "(" ++ t ++ ");"
  | _ => t ++ ";"

/-- A statement made reactive, with the names that it gives values to; nothing
    for a statement that cannot be. -/
def reactiveForm (typescript : Bool) : Node → Except Problem (Option (Node × List Text))
  | .mk (.declaration _ _) _ [.mk (.declarator _) _ [p, _, init]] =>
    if init.isAbsent then .ok none
    else do
      let s ← Template.readWith typescript (assignmentTemplate p) init
      return some (reactive s, p.names)
  | s => .ok (if s.isWrappable then some (reactive s, s.assignedName?.toList) else none)

namespace Component

/-- Whether a statement may still be made reactive. -/
def isOpen (c : Component) (i : Nat) : Bool := !c.settled.contains i && !c.exempt.contains i

/-- Makes a statement reactive, and says whether it has been made so. A
    statement that is settled or exempt stays as it is. -/
def settle (typescript : Bool) (i : Nat) (c : Component) : Except Problem (Component × Bool) :=
  match c.body[i]? with
  | none => .ok (c, false)
  | some s =>
    if c.isOpen i then do
      let c := { c with settled := c.settled ++ [i] }
      match ← reactiveForm typescript s with
      | some (s, names) => return ({ c with body := c.body.set i s }.track names, true)
      | none => return (c, false)
    else .ok (c, false)

/-- Whether a statement is still to be looked at and reads a tracked name. -/
def isDue (c : Component) (i : Nat) : Bool :=
  c.isOpen i && i ≠ c.returnIndex &&
    match c.body[i]? with
    | some s => s.reads c.tracked
    | none => false

/-- Makes those of some statements reactive that have to be, in order, and
    counts them. -/
def round (typescript : Bool) : List Nat → Component → Except Problem (Component × Nat)
  | [], c => .ok (c, 0)
  | i :: is, c =>
    if c.isDue i then do
      let (c, bound) ← c.settle typescript i
      let (c, n) ← round typescript is c
      return (c, n + bound.toNat)
    else round typescript is c

/-- Rounds over the whole body until one changes nothing, or `fuel` is used up. -/
def rounds (typescript : Bool) : (fuel : Nat) → Component → Except Problem (Component × Nat)
  | 0, c => .ok (c, 0)
  | fuel + 1, c => do
    let (c, n) ← c.round typescript (List.range c.body.length)
    if n = 0 then return (c, 0)
    let (c, m) ← rounds typescript fuel c
    return (c, n + m)

/-- Makes every statement reactive that reads a tracked name, or one that such
    a statement gives a value to, and counts them. Every round but the last
    one settles a statement, so there are enough of them. -/
def propagate (typescript : Bool) (c : Component) : Except Problem (Component × Nat) :=
  c.rounds typescript (c.body.length + 1)

end Component

end Unhook
