import Unhook.Component.Reactive

/-!
# State

State is declared as a pair of a value and a setter, in a declaration of its
own. It becomes a plain variable, and calling the setter becomes assigning to
it: a setter that is given a function assigns what the function makes of the
value. A setter that is used in any other way is *synthesized*, that is, it has
to be written out as a function in the end.

* `Node.unset`: a tree in which calls of setters are assignments;
* `Component.extractState`: the step.
-/

namespace Unhook

/-- What a walk over calls of setters has found. -/
structure SetterUse where
  /-- The setters that are used other than by calling them. -/
  escaped : List Text := []
  /-- Whether a call was replaced outside functions and labelled statements. -/
  direct : Bool := false

/-- The assignment that a call of the setter of `value` becomes. It has the
    stretch that it has when it is written in parentheses, with a hole for the
    argument. -/
def setterCall (value : Text) (arguments : List Node) : Node :=
  let target : Text := value ++ " = "
  match Node.first? arguments with
  | none =>
    let span := Span.inParens (target ++ "undefined")
    .assigning value (.reference "undefined" span) span
  | some a =>
    if a.isFunction then
      let span := Span.inParens (target ++ Template.hole ++ "(" ++ value ++ ")")
      .assigning value (.calling a [.reference value span] span) span
    else .assigning value a (Span.inParens (target ++ Template.hole))

namespace Node

mutual

/-- A tree in which calls of setters, in expression position, are assignments.
    `nested` says whether it stands within a function or a labelled
    statement. -/
def unset (setters : List (Text × Text)) (nested : Bool) : Node → SetterUse → Node × SetterUse
  | mk k s ps, u =>
    match k, ps with
    | .call ⟨o, false⟩ pure, callee :: types :: arguments =>
      match callee.identifier?.bind fun n => setters.lookup n with
      | some value =>
        let (arguments, u) := unsetList setters nested arguments u
        (setterCall value arguments, { u with direct := u.direct || !nested })
      | none =>
        let (callee, u) := unset setters nested callee u
        let (types, u) := unset setters nested types u
        let (arguments, u) := unsetList setters nested arguments u
        (mk (.call ⟨o, false⟩ pure) s (callee :: types :: arguments), u)
    | k, ps =>
      let nested := nested || match k with
        | .function _ | .arrow _ | .labeled _ => true
        | _ => false
      match k.reference? with
      | some n =>
        let u :=
          if (setters.lookup n).isSome then { u with escaped := insertNew n u.escaped } else u
        let (ps, u) := unsetList setters nested ps u
        (mk k s ps, u)
      | none =>
        let (ps, u) := unsetList setters nested ps u
        (mk k s ps, u)

/-- Trees in which calls of setters, in expression position, are assignments. -/
def unsetList (setters : List (Text × Text)) (nested : Bool) :
    List Node → SetterUse → List Node × SetterUse
  | [], u => ([], u)
  | n :: ns, u =>
    let (n, u) := unset setters nested n u
    let (ns, u) := unsetList setters nested ns u
    (n :: ns, u)

end

/-- Whether a declarator is given the value of a call for state. -/
def declaresState : Node → Bool
  | mk (.declarator _) _ [_, _, init] => init.expressionHook? = some .state
  | _ => false

end Node

/-- A declaration of state: value, setter and initial value. -/
structure StateDeclaration where
  value : Text
  setter : Text
  initializer : Option Node

namespace StateDeclaration

/-- The state that a statement declares; a problem if it declares state in any
    form but a pair by itself. -/
def ofStatement? : Node → Except Problem (Option StateDeclaration)
  | .mk (.declaration _ _) s ds =>
    match ds.find? Node.declaresState with
    | none => .ok none
    | some d =>
      if ds.length ≠ 1 then .error ⟨.stateShape, s⟩
      else match d with
        | .mk _ _ [.mk .arrayPattern _ [.mk (.binding value) _ _, .mk (.binding setter) _ _], _,
            init] => .ok (some { value, setter, initializer := init.firstArgument? })
        | d => .error ⟨.stateShape, d.span⟩
  | _ => .ok none

/-- The variable that a piece of state becomes. -/
def declaration (typescript : Bool) (d : StateDeclaration) : Except Problem Node :=
  match d.initializer with
  | some init =>
    Template.readWith typescript ("let " ++ d.value ++ " = " ++ Template.hole ++ ";") init
  | none => Template.read typescript ("let " ++ d.value ++ ";")

/-- The piece of state that is declared by the statement at `i`. -/
def cell (d : StateDeclaration) (i : Nat) : Cell where
  value := d.value
  setter := d.setter
  initializer := d.initializer.map Node.printExpression
  declaration := i

end StateDeclaration

namespace Component

/-- Turns the statement at `i` into a variable, if it declares state. -/
def extractCell (typescript : Bool) (i : Nat) (c : Component) : Except Problem Component :=
  match c.body[i]? with
  | none => .ok c
  | some s => do
    match ← StateDeclaration.ofStatement? s with
    | none => return c
    | some d =>
      let s ← d.declaration typescript
      let c := { c with
        body := c.body.set i s
        exempt := c.exempt ++ [i]
        setters := (d.setter, d.value) :: c.setters
        cells := c.cells ++ [d.cell i] }
      return c.track [d.value]

/-- Turns those of some statements into variables that declare state. -/
def extractCells (typescript : Bool) : List Nat → Component → Except Problem Component
  | [], c => .ok c
  | i :: is, c => do extractCells typescript is (← c.extractCell typescript i)

/-- Replaces the calls of setters in statements: the new statements, which of
    them had one replaced outside functions, counting from `i`, and the setters
    that escaped. -/
def unsetBody (setters : List (Text × Text)) :
    (i : Nat) → List Node → (escaped : List Text) → List Node × List Nat × List Text
  | _, [], escaped => ([], [], escaped)
  | i, s :: ss, escaped =>
    let (s, u) := s.unset setters false { escaped }
    let (ss, direct, escaped) := unsetBody setters (i + 1) ss u.escaped
    (s :: ss, if u.direct then i :: direct else direct, escaped)

/-- Makes some statements reactive. -/
def settleAll (typescript : Bool) : List Nat → Component → Except Problem Component
  | [], c => .ok c
  | i :: is, c => do
    let (c, _) ← c.settle typescript i
    settleAll typescript is c

/-- Replaces the calls of setters in the body. -/
def unsetCalls (typescript : Bool) (c : Component) : Except Problem Component :=
  if c.setters.isEmpty then .ok c
  else
    let (body, direct, escaped) := unsetBody c.setters 0 c.body []
    settleAll typescript (direct.filter (· ≠ c.returnIndex)) { c with
      body
      synthesized := escaped.foldl (fun ss n => insertNew n ss) c.synthesized }

/-- Turns the state of a component into variables and makes what reads them
    reactive. -/
def extractState (typescript : Bool) (c : Component) : Except Problem Component := do
  let c ← c.extractCells typescript (List.range c.body.length)
  match Node.findList? (fun n => n.hook? = some .state) c.body with
  | some call => throw ⟨.stateShape, call.span⟩
  | none =>
    let c ← c.unsetCalls typescript
    let (c, _) ← c.propagate typescript
    return c

end Component

end Unhook
