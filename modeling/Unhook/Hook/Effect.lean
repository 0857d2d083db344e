import Unhook.Component.Basic
import Unhook.Problem

/-!
# Effects

An effect is a statement of the component that calls a hook with a function. It
becomes a call of a lifecycle function: the one for mounting when its list of
dependencies is empty, and the one for updates otherwise. What the function
returns is its *cleanup*, which is taken out of it and called when the component
is destroyed; of a function that does nothing else only the cleanup is left.

* `Effect.ofCall`: the parts of an effect;
* `Effect.statements`: the statements that it becomes;
* `Component.lowerEffects`: the step.
-/

namespace Unhook

/-- The moments in the life of a component at which functions are called. -/
inductive Lifecycle
  | mount | update | destroy
  deriving DecidableEq

/-- The name of the function that registers a function for a moment. -/
def Lifecycle.name : Lifecycle → Text
  | mount => "onMount"
  | update => "afterUpdate"
  | destroy => "onDestroy"

/-- The parts of an effect. -/
structure Effect where
  /-- When it runs. -/
  moment : Lifecycle
  /-- What it does, unless there is nothing but the cleanup. -/
  callback : Option Node
  cleanup : Option Node

namespace Effect

/-- When an effect with the given arguments runs. -/
def momentOf (arguments : List Node) : Lifecycle :=
  match arguments with
  | _ :: .mk .array _ [] :: _ => .mount
  | _ => .update

/-- Whether a value can be a cleanup. -/
def isCleanup (e : Node) : Bool := e.isFunction || e.identifier?.isSome

/-- The last return of some statements, with what stands before and after. -/
def splitReturn? : List Node → Option (List Node × Node × List Node)
  | [] => none
  | s :: ss =>
    match splitReturn? ss with
    | some (before, r, after) => some (s :: before, r, after)
    | none => if s.kind = .returnStatement then some ([], s, ss) else none

/-- The parts of a function body without its last return, and the cleanup that
    it returns. -/
def takeCleanup (parts : List Node) : Except Problem (List Node × Option Node) :=
  match splitReturn? parts with
  | none => .ok (parts, none)
  | some (before, r, after) =>
    match Component.returnValue? r with
    | none => .ok (before ++ after, none)
    | some e =>
      if isCleanup e then .ok (before ++ after, some e) else .error ⟨.effectCleanup, e.span⟩

/-- A function with another body. -/
def withBody (b : Node) : Node → Node
  | .mk (.arrow a) s [ts, ps, r, _] => .mk (.arrow a) s [ts, ps, r, b]
  | .mk (.function f) s [id, ts, ps, r, _] => .mk (.function f) s [id, ts, ps, r, b]
  | n => n

/-- What is left of the function of an effect, and its cleanup. -/
def split (f : Node) : Except Problem (Option Node × Option Node) :=
  match f.body with
  | .mk .functionBody s parts => do
    let (parts, cleanup) ← takeCleanup parts
    if cleanup.isSome ∧ parts.all Node.isDirective then return (none, cleanup)
    else return (some (withBody (.mk .functionBody s parts) f), cleanup)
  | b =>
    if !b.isAbsent && isCleanup b then .ok (none, some b) else .ok (some f, none)

/-- The parts of the effect that a call of a hook is. -/
def ofCall (hook : Hook) (call : Node) : Except Problem Effect :=
  match call.firstArgument?.filter (·.isFunction) with
  | none => .error ⟨.effectCallback hook.name, call.span⟩
  | some f => do
    let (callback, cleanup) ← split f
    return { moment := momentOf call.arguments, callback, cleanup }

/-- The functions that are registered for an effect, and when they run. -/
def registrations (e : Effect) : List (Lifecycle × Node) :=
  (e.callback.map fun f => (e.moment, f)).toList ++
    (e.cleanup.map fun f => (.destroy, f)).toList

/-- The statement that registers a function. -/
def register (m : Lifecycle) (f : Node) : Node :=
  (Node.calling (.reference m.name f.span) [f] f.span).asStatement

/-- The hook and the call of a statement that is an effect. -/
def ofStatement? : Node → Option (Hook × Node)
  | .mk .expressionStatement _ [e] =>
    match e.expressionHook? with
    | some h => if h.isEffect then some (h, e) else none
    | none => none
  | _ => none

/-- What the effects of a body become: the new statements, and the functions
    registered, in order. -/
def lower : List Node → Except Problem (List Node × List Lifecycle)
  | [] => .ok ([], [])
  | s :: ss =>
    match ofStatement? s with
    | none => do
      let (ss, ms) ← lower ss
      return (s :: ss, ms)
    | some (hook, call) => do
      let rs := (← ofCall hook call).registrations
      let (ss, ms) ← lower ss
      return (rs.map (fun (m, f) => register m f) ++ ss, rs.map (·.1) ++ ms)

end Effect

/-- Whether a node is a call of a hook that runs an effect. -/
def Node.isEffectCall (n : Node) : Bool := n.hook?.any Hook.isEffect

/-- Turns the effects of a component into calls of lifecycle functions. -/
def Component.lowerEffects (c : Component) : Except Problem Component := do
  let (body, moments) ← Effect.lower c.body
  match Node.findList? Node.isEffectCall body with
  | some call => throw ⟨.effectPlacement, call.span⟩
  | none =>
    return moments.foldl (fun c m => c.useLifecycle m.name) { c with body }

end Unhook
