import Unhook.Component.Basic
import Unhook.Problem

/-!
# Memoized values

A hook that memoizes is replaced by what it memoizes: a value by what its
function returns first, a callback or a component by itself. What replaces a
hook is looked through as well, so that hooks within hooks are replaced too.
State that is kept by a reducer is not compiled.

* `Node.unmemo`: a tree without memoizing hooks;
* `Component.unmemo`: the step.
-/

namespace Unhook

namespace Node

mutual

/-- A tree in which calls of memoizing hooks, in expression position, are what
    they memoize. -/
def unmemo : Node → Except Problem Node
  | mk k s ps =>
    match expressionHook? (mk k s ps) with
    | some .memo => unmemoValue s ps
    | some .callback | some .component => unmemoFirst s ps
    | some .reducer => .error ⟨.reducer, s⟩
    | _ => do return mk k s (← unmemoList ps)

/-- Trees in which calls of memoizing hooks are what they memoize. -/
def unmemoList : List Node → Except Problem (List Node)
  | [] => .ok []
  | n :: ns => do
    let n ← unmemo n
    let ns ← unmemoList ns
    return n :: ns

/-- The first argument of a call of which the parts are given. -/
def unmemoFirst (s : Span) : List Node → Except Problem Node
  | _ :: _ :: a :: _ => if a.kind = .spread then .ok (reference "undefined" s) else unmemo a
  | _ => .ok (reference "undefined" s)

/-- The value that is memoized by a call of which the parts are given: the
    concise body of its function, or what that returns first. -/
def unmemoValue (s : Span) : List Node → Except Problem Node
  | _ :: _ :: a :: _ =>
    match a with
    | mk (.arrow _) _ [_, _, _, mk .functionBody _ ss] => unmemoReturn s ss
    | mk (.arrow _) _ [_, _, _, b] => unmemo b
    | mk (.function _) _ [_, _, _, _, mk .functionBody _ ss] => unmemoReturn s ss
    | mk (.function _) _ _ => .ok (reference "undefined" s)
    | _ => .error ⟨.memoArgument, s⟩
  | _ => .error ⟨.memoArgument, s⟩

/-- What the first return among some statements returns. -/
def unmemoReturn (s : Span) : List Node → Except Problem Node
  | [] => .ok (reference "undefined" s)
  | n :: ns =>
    match n with
    | mk .returnStatement _ [e] => if e.isAbsent then .ok (reference "undefined" s) else unmemo e
    | _ => unmemoReturn s ns

end

end Node

/-- Replaces the memoizing hooks of a component and its module. -/
def Component.unmemo (c : Component) : Except Problem Component := do
  let module ← Node.unmemoList c.module
  let body ← Node.unmemoList c.body
  return { c with module, body }

end Unhook
