import Unhook.Component.Basic
import Unhook.Problem

/-!
# Where markup may stand

Markup may not stand in a loop, in a branch, or in a function other than the
component itself. Two things are no exceptions to that but compiled later: the
branches of a conditional that is all that a hole holds, and the callback that
renders the items of a list.

Of the branches around a piece of markup only the innermost one within its
function counts, and of the functions only the innermost one. Conditionals and
callbacks are recognized by their stretches of the source, which are recorded
when the hole or the call around them is met.

* `Placement.check`: the first misplaced piece of markup of a tree;
* `Component.checkPlacement`: the step.
-/

namespace Unhook

namespace Placement

/-- A branch around a node. -/
inductive Branch
  /-- The body of an `if` statement. -/
  | ofIf
  /-- A branch of a conditional, which may be that of a hole. -/
  | ofConditional (inHole : Bool)
  deriving DecidableEq

/-- A function around a node. -/
inductive Enclosing
  | component
  /-- The callback that renders the items of a list. -/
  | listItem
  | other
  deriving DecidableEq

/-- What is around a node. -/
structure Surroundings where
  inLoop : Bool := false
  /-- The innermost branch within the function. -/
  branch : Option Branch := none
  /-- The innermost function. -/
  enclosing : Option Enclosing := none

/-- The stretches that were recorded. -/
structure Seen where
  /-- Callbacks that render the items of a list. -/
  callbacks : List Span := []
  /-- Conditionals that are all that a hole holds. -/
  conditionals : List Span := []

namespace Surroundings

/-- Why markup must not stand here. -/
def cause? (a : Surroundings) : Option Cause :=
  if a.inLoop then some .markupInLoop
  else if a.branch = some .ofIf ∨ a.branch = some (.ofConditional false) then some .markupInBranch
  else if a.enclosing = some .other then some .markupInFunction
  else none

/-- The surroundings within a function at `s`. -/
def enter (a : Surroundings) (seen : Seen) (s : Span) : Surroundings :=
  { a with
    branch := none
    enclosing := some (if seen.callbacks.contains s then .listItem else .other) }

/-- Whether the branches of a conditional at `s` are those of a hole. -/
def holds (a : Surroundings) (seen : Seen) (s : Span) : Bool :=
  seen.conditionals.contains s || a.branch = some (.ofConditional true)

end Surroundings

/-- Records the callback of a call that renders a list. -/
def Seen.recordCall (seen : Seen) (call : Node) : Seen :=
  match call.mapCall? with
  | some (_, callback) => { seen with callbacks := callback.span :: seen.callbacks }
  | none => seen

/-- Records the conditional that a hole holds. -/
def Seen.recordHole (seen : Seen) (content : Node) : Seen :=
  if content.kind = .conditional then
    { seen with conditionals := content.span :: seen.conditionals }
  else seen

/-- Whether a kind of statement is a loop. -/
def isLoop : Kind → Bool
  | .forStatement | .forIn | .forOf _ | .whileStatement | .doWhile => true
  | _ => false

mutual

/-- Checks the markup of a tree, in reading order. -/
def check (a : Surroundings) : Node → Seen → Except Problem Seen
  | .mk k s ps, seen =>
    match k, ps with
    | .element, ps | .fragment, ps =>
      match a.cause? with
      | some c => .error ⟨c, s⟩
      | none => checkList a ps seen
    | .container, [e] => check a e (seen.recordHole e)
    | .conditional, [t, x, y] => do
      let inner := { a with branch := some (.ofConditional (a.holds seen s)) }
      let seen ← check a t seen
      let seen ← check inner x seen
      check inner y seen
    | .ifStatement, [t, x, y] => do
      let inner := { a with branch := some .ofIf }
      let seen ← check a t seen
      let seen ← check inner x seen
      check inner y seen
    | .call l pure, ps => checkList a ps (seen.recordCall (.mk (.call l pure) s ps))
    | .function _, ps | .arrow _, ps => checkList (a.enter seen s) ps seen
    | k, ps => checkList (if isLoop k then { a with inLoop := true } else a) ps seen

/-- Checks the markup of some trees, in reading order. -/
def checkList (a : Surroundings) : List Node → Seen → Except Problem Seen
  | [], seen => .ok seen
  | n :: ns, seen => do checkList a ns (← check a n seen)

end

end Placement

/-- Checks that markup stands only where it can be compiled. -/
def Component.checkPlacement (c : Component) : Except Problem Component := do
  let seen ← Placement.checkList {} c.module {}
  let _ ← Placement.checkList { enclosing := some .component } c.body seen
  return c

end Unhook
