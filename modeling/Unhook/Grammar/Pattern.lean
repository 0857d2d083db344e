import Unhook.Grammar.Cursor

/-!
# Patterns

A binding pattern introduces names (`pattern`); the parameters of a function
are patterns with types and defaults (`params`). An assignment also has a
pattern on its left, but that is only known once the `=` is met: it is read as
an expression and then turned into a target (`target?`).

Decorators stand before classes, their members and parameters (`decorators`).
-/

namespace Unhook.Grammar

open Parse

variable (self : Rules)

/-- The type after a colon, if there is one. -/
def typeNote : Parse Node := do
  if (← typed) && (← eat ":") then self .type else return Node.absent

/-- The type of a result after a colon, if there is one. -/
def resultNote : Parse Node := do
  if (← typed) && (← eat ":") then self .resultType else return Node.absent

/-- Decorators, if there are any. -/
def decorators : Parse Node := do
  let s ← start
  if ← isPunct "@" then
    let ds ← loop [] fun items => do
      if ← eat "@" then
        let d ← within ({ · with decorator := true, inAllowed := true }) (self .leftHand)
        return .more (d :: items)
      return .done items.reverse
    node .decorators s ds
  else return Node.absent

/-- The name of a property: the node, and whether it is computed. -/
def propertyKey : Parse (Node × Bool) := do
  let s ← start
  match ← token with
  | .word n _ => advance; return (← node (.word n) s [], false)
  | .string v h _ => advance; return (← node (.string v h) s [], false)
  | .number v => advance; return (← node (.number v) s [], false)
  | .bigint d => advance; return (← node (.bigint d) s [], false)
  | .privateName n => advance; return (← node (.privateName n) s [], false)
  | _ =>
    expect "["
    let e ← withIn (self .assignment)
    expect "]"
    return (e, true)

/-- A pattern with the default that follows it, if there is one. -/
def withDefault (p : Node) : Parse Node := do
  if ← eat "=" then
    let d ← withIn (self .assignment)
    node .defaultPattern p.span.start [p, d]
  else return p

/-- Reads a name that is introduced. -/
def bindingName : Parse Node := do
  let s ← start
  let n ← name
  node (.binding n) s []

/-- Reads the elements of a list in brackets, in which elements may be left
    out, up to its end; `s` is where the list begins. -/
def elements (s : Nat) (element : Parse Node) : Parse (List Node) :=
  loop [] fun items => do
    if ← eat "]" then return .done items.reverse
    let here ← start
    if ← eat "," then return .more ((← node .elision here []) :: items)
    let e ← element
    noteTrailing s "]"
    if ← eat "]" then return .done (e :: items).reverse
    expect ","
    return .more (e :: items)

/-- The rest of an array pattern. A trailing comma cannot follow it. -/
def restElement (what : Parse Node) (close : Text) : Parse Node := do
  let s ← start
  expect "..."
  let p ← what
  check (← isPunct close)
  node .rest s [p]

/-- An element of an array pattern. -/
def arrayPatternElement : Parse Node := do
  if ← isPunct "..." then restElement (self .pattern) "]"
  else withDefault self (← self .pattern)

/-- A property of an object pattern. -/
def patternProperty : Parse Node := do
  if ← isPunct "..." then restElement bindingName "\x7d"
  else
    let s ← start
    let here ← nameHere?
    let (key, computed) ← propertyKey self
    if ← eat ":" then
      let p ← withDefault self (← self .pattern)
      node (.patternProperty computed false) s [key, p]
    else
      match here with
      | some n =>
        let p ← withDefault self (.mk (.binding n) key.span [])
        node (.patternProperty false true) s [key, p]
      | none => fail

/-- A binding pattern. -/
def patternRule : Parse Node := do
  let s ← start
  if ← eat "[" then node .arrayPattern s (← elements s (arrayPatternElement self))
  else if ← eat "\x7b" then
    node .objectPattern s (← commaUntil "\x7d" (patternProperty self))
  else bindingName

/-- The words that can stand before a parameter. -/
def paramModifiers : List String := ["public", "private", "protected", "override", "readonly"]

/-- Whether a list has no member twice. -/
def distinct : List Text → Bool
  | [] => true
  | n :: ns => !ns.contains n && distinct ns

/-- Whether some words can stand together before a member or a parameter: none
    twice, and only one that says who may use it. -/
def modifiersOk (mods : List Text) : Bool :=
  distinct mods && (mods.filter (·.oneOf ["public", "private", "protected"])).length ≤ 1

/-- Reads the words before a parameter. -/
def modifiersOfParam : Parse (List Text) :=
  loop [] fun mods => do
    match ← token with
    | .word n true =>
      let next ← peek
      let more := !next.newline && match next.token with
        | .word _ _ | .punct ['{'] | .punct ['['] => true
        | _ => false
      if (← typed) && n.oneOf paramModifiers && more then
        advance
        return .more (n :: mods)
      else return .done mods.reverse
    | _ => return .done mods.reverse

/-- A parameter. -/
def param : Parse Node := do
  let s ← start
  if ← eat "..." then
    let p ← self .pattern
    let t ← typeNote self
    check (← isPunct ")")
    node .restParam s [p, t]
  else
    let ds ← decorators self
    let mods ← modifiersOfParam
    check (modifiersOk mods)
    let p ← self .pattern
    let optional ← if ← typed then eat "?" else pure false
    let t ← typeNote self
    let d ← if ← eat "=" then withIn (self .assignment) else pure Node.absent
    node (.param mods optional) s [ds, p, t, d]

/-- The declared type of `this`, if it stands first among the parameters. -/
def thisParam? : Parse (Option Node) := do
  if (← typed) && (← isWord "this") then
    let s ← start
    advance
    let t ← typeNote self
    if !(← isPunct ")") then expect ","
    return some (← node .thisParam s [t])
  return none

/-- The parameters of a function, in parentheses. -/
def params : Parse Node := do
  let s ← start
  expect "("
  let this ← thisParam? self
  node .params s (this.toList ++ (← commaUntil ")" (param self)))

/-- What an expression is about, without the types that are noted around it. -/
def untyped : Node → Node
  | .mk (.ascription _) _ [e, _] | .mk (.nonNull false) _ [e] | .mk .instantiation _ [e, _] =>
    untyped e
  | n => n

/-- Whether an expression is a name or a member. -/
def isPlace (n : Node) : Bool :=
  match n.kind with
  | .identifier _ => true
  | .member l _ | .index l | .privateMember l _ => !l.ends
  | _ => false

/-- Whether an expression other than a name can be assigned to as it is: a
    member, or a name or a member whose type is noted. -/
def isAssignable (n : Node) : Bool :=
  match n.kind with
  | .member l _ | .index l | .privateMember l _ => !l.ends
  | .ascription _ | .nonNull false => isPlace (untyped n)
  | _ => false

/-- Whether what is spread in some parts stands last and can be assigned to: it
    has no default, and in an object it is no pattern. -/
def spreadLast (inObject trailing : Bool) : List Node → Bool
  | [] => true
  | [.mk .spread _ [e]] =>
    !trailing && match e.kind with
      | .assign _ => false
      | .array | .object => !inObject
      | _ => true
  | n :: ns => n.kind ≠ .spread && spreadLast inObject trailing ns

mutual

/-- The target that an expression on the left of an assignment is; `trailing`
    tells where lists begin that have a comma at their end. -/
def target? (trailing : List Nat) : Node → Option Node
  | .mk (.identifier n) s _ => some (.mk (.target n) s [])
  | .mk .array s ps =>
    if spreadLast false (trailing.contains s.start) ps then
      (targets? trailing ps).map (.mk .arrayTarget s ·)
    else none
  | .mk .object s ps =>
    if spreadLast true (trailing.contains s.start) ps then
      (targets? trailing ps).map (.mk .objectTarget s ·)
    else none
  | .mk .spread s [e] => (target? trailing e).map fun t => .mk .rest s [t]
  | .mk .elision s ps => some (.mk .elision s ps)
  | .mk (.assign none) s [t, d] => some (.mk .defaultTarget s [t, d])
  | .mk (.property ⟨.value, _, true⟩) s [_, .mk .defaulted _ [.mk (.identifier n) i _, d]] =>
    some (.mk .targetShorthand s [.mk (.target n) i [], d])
  | .mk (.property ⟨.value, _, true⟩) s [_, .mk (.identifier n) i _] =>
    some (.mk .targetShorthand s [.mk (.target n) i [], Node.absent])
  | .mk (.property ⟨.value, computed, false⟩) s [k, v] =>
    (target? trailing v).map fun t => .mk (.targetProperty computed) s [k, t]
  | .mk k s ps => if isAssignable (.mk k s ps) then some (.mk k s ps) else none

/-- The targets that the parts of a pattern are. -/
def targets? (trailing : List Nat) : List Node → Option (List Node)
  | [] => some []
  | n :: ns => do return (← target? trailing n) :: (← targets? trailing ns)

end

/-- Whether an expression can be assigned to by an operator. -/
def simpleTarget? : Node → Option Node
  | .mk (.identifier n) s _ => some (.mk (.target n) s [])
  | n => if isAssignable n then some n else none

/-- The target that an expression is, if it can be one on its own; parts of
    patterns cannot. -/
def assignTarget? (trailing : List Nat) (n : Node) : Option Node :=
  match n.kind with
  | .array | .object => target? trailing n
  | _ => simpleTarget? n

end Unhook.Grammar
