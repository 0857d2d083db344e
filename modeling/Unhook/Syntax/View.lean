import Unhook.Syntax.Node

/-!
# Views of nodes

What the rules of compilation ask of a node: the name that it is, the function
that it calls and with what, whether it is markup or a function. A *hook* is a
function of the framework that components call; it is called by its bare name
or through the framework's namespace.

* `Node.hook?`: the hook that a call calls;
* `Node.mapCall?`: the collection and the callback of a call that renders a
  list;
* `Node.names`: the names that a pattern introduces.
-/

namespace Unhook

/-- The functions of the framework that are compiled away. -/
inductive Hook
  | state | reducer | memo | callback | component | effect | layoutEffect
  deriving DecidableEq, Repr

namespace Hook

/-- All the hooks. -/
def all : List Hook := [state, reducer, memo, callback, component, effect, layoutEffect]

/-- The name of a hook. -/
def name : Hook → Text
  | state => "useState"
  | reducer => "useReducer"
  | memo => "useMemo"
  | callback => "useCallback"
  | component => "memo"
  | effect => "useEffect"
  | layoutEffect => "useLayoutEffect"

/-- The hook of a given name. -/
def ofName? (n : Text) : Option Hook := all.find? (·.name = n)

/-- Whether a hook runs an effect. -/
def isEffect : Hook → Bool
  | effect | layoutEffect => true
  | _ => false

end Hook

/-- The name that the framework is imported under. -/
def frameworkNamespace : Text := "React"

/-- The module that the framework is imported from. -/
def frameworkModule : Text := "react"

namespace Node

/-- The name that is used as an expression. -/
def identifier? : Node → Option Text
  | mk (.identifier n) _ _ => some n
  | _ => none

/-- The name that a pattern consists of. -/
def binding? : Node → Option Text
  | mk (.binding n) _ _ => some n
  | _ => none

/-- The name that is assigned to. -/
def target? : Node → Option Text
  | mk (.target n) _ _ => some n
  | _ => none

/-- Whether a node is an element or a fragment. -/
def isMarkup (n : Node) : Bool :=
  match n.kind with
  | .element | .fragment => true
  | _ => false

/-- Whether a node is a function that is written as an expression. -/
def isFunction (n : Node) : Bool :=
  match n.kind with
  | .arrow _ => true
  | .function form => !form.declaration
  | _ => false

/-- Whether a node is a directive. -/
def isDirective (n : Node) : Bool :=
  match n.kind with
  | .directive _ => true
  | _ => false

/-- The name of the function that is called: a bare name, or a member of the
    framework. -/
def calleeName? : Node → Option Text
  | mk (.identifier n) _ _ => some n
  | mk (.member ⟨_, false⟩ n) _ [mk (.identifier o) _ _] =>
    if o = frameworkNamespace then some n else none
  | _ => none

/-- The hook that a call calls. -/
def hook? : Node → Option Hook
  | mk (.call _ _) _ (callee :: _) => callee.calleeName?.bind Hook.ofName?
  | _ => none

/-- The hook that a call in expression position calls. -/
def expressionHook? (n : Node) : Option Hook :=
  match n.kind with
  | .call ⟨_, false⟩ _ => n.hook?
  | _ => none

/-- The first of some arguments, unless it is spread. -/
def first? : List Node → Option Node
  | mk .spread _ _ :: _ => none
  | a :: _ => some a
  | [] => none

/-- The arguments of a call. -/
def arguments (n : Node) : List Node := n.parts.drop 2

/-- The first argument of a call, unless it is spread. -/
def firstArgument? (n : Node) : Option Node := first? n.arguments

/-- The parameters of a function, without the declared type of `this`. -/
def parameters (n : Node) : List Node :=
  let ps := match n with
    | mk (.arrow _) _ [_, ps, _, _] => ps.parts
    | mk (.function _) _ [_, _, ps, _, _] => ps.parts
    | _ => []
  ps.filter fun p => p.kind ≠ .thisParam

/-- The body of a function: a `functionBody`, or the expression of a concise
    arrow. -/
def body : Node → Node
  | mk (.arrow _) _ [_, _, _, b] => b
  | mk (.function _) _ [_, _, _, _, b] => b
  | _ => absent

/-- The statements of a function body, without its directives. -/
def statements (b : Node) : List Node :=
  match b.kind with
  | .functionBody => b.parts.filter (!·.isDirective)
  | _ => []

/-- The pattern of a parameter. -/
def pattern : Node → Node
  | mk (.param _ _) _ (_ :: p :: _) => p
  | _ => absent

/-- The pattern of the only parameter of a function, if it has one parameter
    that takes one argument. -/
def onlyPattern? (f : Node) : Option Node :=
  match f.parameters with
  | [mk (.param _ _) _ (_ :: p :: _)] => some p
  | _ => none

/-- The collection and the callback of a call `collection.map(callback)`, where
    the callback is a function of one parameter. -/
def mapCall? : Node → Option (Node × Node)
  | mk (.call _ _) _ [mk (.member ⟨_, false⟩ m) _ [collection], _, callback] =>
    if m = "map" ∧ callback.isFunction ∧ callback.onlyPattern?.isSome then
      some (collection, callback)
    else none
  | _ => none

/-- The name that a property key is known by without evaluation. -/
def keyName? : Node → Option Text
  | mk (.word n) _ _ => some n
  | mk (.string v _) _ _ => some v
  | _ => none

mutual

/-- The names that a pattern introduces, in order. -/
def names : Node → List Text
  | mk (.binding n) _ _ => [n]
  | mk .objectPattern _ ps | mk .arrayPattern _ ps | mk .rest _ ps => namesList ps
  | mk (.patternProperty _ _) _ [_, p] => names p
  | mk .defaultPattern _ [p, _] => names p
  | _ => []

/-- The names that some patterns introduce, in order. -/
def namesList : List Node → List Text
  | [] => []
  | p :: ps => names p ++ namesList ps

end

/-- The name and the value of an assignment to a name. -/
def assignment? : Node → Option (Text × Node)
  | mk (.assign _) _ [mk (.target n) _ _, value] => some (n, value)
  | _ => none

/-- The name and the value of a declarator that gives a name a value. -/
def declarator? : Node → Option (Text × Node)
  | mk (.declarator _) _ [mk (.binding n) _ _, _, value] =>
    if value.isAbsent then none else some (n, value)
  | _ => none

/-- An expression that is a name. -/
def reference (name : Text) (span : Span) : Node := mk (.identifier name) span []

/-- The assignment of a value to a name. -/
def assigning (name : Text) (value : Node) (span : Span) : Node :=
  mk (.assign none) span [mk (.target name) span [], value]

/-- The call of a function of some name. -/
def calling (callee : Node) (arguments : List Node) (span : Span) : Node :=
  mk (.call .plain false) span (callee :: absent :: arguments)

/-- An expression as a statement. -/
def asStatement (e : Node) : Node := mk .expressionStatement e.span [e]

mutual

/-- The first node of a tree, in reading order, that satisfies `p`. -/
def find? (p : Node → Bool) : Node → Option Node
  | mk k s ps => if p (mk k s ps) then some (mk k s ps) else findList? p ps

/-- The first node of some trees, in reading order, that satisfies `p`. -/
def findList? (p : Node → Bool) : List Node → Option Node
  | [] => none
  | n :: ns => (n.find? p).or (findList? p ns)

end

end Node

end Unhook
