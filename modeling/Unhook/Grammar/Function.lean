import Unhook.Grammar.Pattern

/-!
# Functions and classes

Functions, methods, arrows and classes. A body begins with its directives:
strings that are whole statements. What `await`, `yield` and `return` mean
inside is decided by the function around them.
-/

namespace Unhook.Grammar

open Parse

variable (self : Rules)

/-- Reads items with commas between them, at least one, up to an angle bracket,
    which is read too; a comma may stand before it. -/
def angled (item : Parse Node) : Parse (List Node) := do
  loop [← item] fun items => do
    if ← isChar '>' then
      advanceChar
      return .done items.reverse
    expect ","
    if ← isChar '>' then
      advanceChar
      return .done items.reverse
    return .more ((← item) :: items)

/-- A type parameter. -/
def typeParam : Parse Node := do
  let s ← start
  let mods ← loop [] fun mods => do
    match ← token, (← peek).token with
    | .word n true, .word _ _ =>
      if n.oneOf ["const", "in", "out"] then
        advance
        return .more (n :: mods)
      else return .done mods
    | _, _ => return .done mods
  check (distinct mods)
  let n ← name
  let bound ← if ← eatWord "extends" then self .type else pure Node.absent
  let default ← if ← eat "=" then self .type else pure Node.absent
  node (.typeParameter mods n) s [bound, default]

/-- The type parameters at the cursor, if there are any. -/
def typeParams : Parse Node := do
  if (← typed) && (← isPunct "<") then
    let s ← start
    advance
    let ps ← angled (typeParam self)
    node .typeParameters s ps
  else return Node.absent

/-- The directive that a statement is: a string that is written without
    parentheses. -/
def directive? (raw : Text) : Node → Option Node
  | .mk .expressionStatement s [.mk (.string _ _) t _] =>
    if s.start = t.start then some (.mk (.directive raw) s []) else none
  | _ => none

/-- The text between the quotes, if the token is a string. -/
def rawHere? : Parse (Option Text) := do
  match ← token with
  | .string _ _ raw => return some raw
  | _ => return none

/-- Reads statements up to the end that `close` recognizes, those at the
    beginning that are strings as directives. -/
def statements (close : Parse Bool) : Parse (List Node) :=
  loop (true, []) fun (prologue, items) => do
    if ← close then return .done items.reverse
    let raw ← rawHere?
    let s ← self .statement
    match prologue, raw with
    | true, some raw =>
      match directive? raw s with
      | some d => return .more (true, d :: items)
      | none => return .more (false, s :: items)
    | _, _ => return .more (false, s :: items)

/-- The body of a function, in braces. -/
def functionBody : Parse Node := do
  let s ← start
  expect "\x7b"
  node .functionBody s (← statements self (eat "\x7d"))

/-- The context inside a function. -/
def inside (async generator : Bool) (ctx : Context) : Context :=
  { ctx with
    await := async, yield := generator, inAllowed := true, returnAllowed := true,
    arrowResults := true }

/-- The parts of a function after its name. Without a body there is only a
    declaration of its type. -/
def functionParts (async generator : Bool) : Parse (List Node) :=
  within (inside async generator) do
    let ts ← typeParams self
    let ps ← params self
    let r ← resultNote self
    if (← typed) && !(← isPunct "\x7b") then
      semicolon
      return [ts, ps, r, Node.absent]
    return [ts, ps, r, ← functionBody self]

/-- Whether a function has a body. -/
def hasBody (f : Node) : Bool := f.parts.getLast?.any (!·.isAbsent)

/-- A function from the keyword on; `s` is where it begins. One that is defined
    elsewhere has no body. -/
def functionAt (s : Nat) (declaration nameless async declare : Bool) : Parse Node := do
  expectWord "function"
  let generator ← eat "*"
  let ctx := if declaration then id else inside async generator
  let id ←
    if ← isPunct "(" then
      check nameless
      pure Node.absent
    else if (← typed) && nameless && (← isPunct "<") then pure Node.absent
    else within ctx bindingName
  let parts ← functionParts self async generator
  let f ← node (.function { declaration, async, generator, declare }) s (id :: parts)
  check (!(declare && hasBody f))
  return f

/-- Whether the words `async function` stand at the cursor. -/
def isAsyncFunction : Parse Bool := do
  if ← isWord "async" then
    let next ← peek
    return next.token = .word "function" true && !next.newline
  return false

/-- A function, with `async` before it or not. -/
def function (declaration nameless : Bool) : Parse Node := do
  let s ← start
  let async ← isAsyncFunction
  if async then advance
  functionAt self s declaration nameless async false

/-- A method from its parameters on. -/
def methodFunction (async generator : Bool) : Parse Node := do
  let s ← start
  let parts ← functionParts self async generator
  node (.function { async, generator }) s (Node.absent :: parts)

/-- Whether a parameter has a default. -/
def hasDefault : Node → Bool
  | .mk (.param _ _) _ [_, _, _, d] => !d.isAbsent
  | _ => false

/-- Whether a method takes as many arguments as its role asks for: a getter none
    and a setter one, which has no default where types are written. -/
def takesArguments (typed : Bool) (role : Role) (f : Node) : Bool :=
  let ps := (f.parts.getD 2 Node.absent).parts.filter (·.kind ≠ .thisParam)
  match role with
  | .getter => ps.isEmpty
  | .setter => ps.length = 1 && ps.all fun p => p.kind ≠ .restParam && !(typed && hasDefault p)
  | _ => true

/-- The body of an arrow: a block, or an expression. -/
def arrowBody (async : Bool) : Parse Node := do
  if ← isPunct "\x7b" then within (inside async false) (functionBody self)
  else within ({ · with await := async, yield := false }) (self .assignment)

/-- The arrow itself, on the same line as what is before it. -/
def arrowSign : Parse Unit := do
  check (!(← newline))
  expect "=>"

/-- An arrow whose only parameter is a name that has been read; `s` is where the
    arrow begins. -/
def simpleArrow (s : Nat) (async : Bool) (p : Node) : Parse Node := do
  let param := Node.mk (.param [] false) p.span [Node.absent, p, Node.absent, Node.absent]
  let ps := Node.mk .params p.span [param]
  arrowSign
  let b ← arrowBody self async
  node (.arrow { async }) s [Node.absent, ps, Node.absent, b]

/-- What stands before the body of an arrow with parentheses: type parameters,
    parameters and result type. An arrow declares no type of `this`. -/
def arrowHead : Parse (Node × Node × Node) := do
  let async ← eatWord "async"
  let (ts, ps) ← within (fun c => { c with await := c.await || async, inAllowed := true }) do
    let ts ← typeParams self
    let ps ← params self
    pure (ts, ps)
  check (ps.parts.all (·.kind ≠ .thisParam))
  let r ← within ({ · with inAllowed := true }) (resultNote self)
  arrowSign
  return (ts, ps, r)

/-- How sure it is that an arrow stands at the cursor. -/
inductive Guess
  | no | maybe | yes
  deriving DecidableEq

/-- Words that mark a declaration, if a name follows them. -/
def modifierWords : List String :=
  ["abstract", "accessor", "const", "declare", "default", "export", "in", "out", "override",
    "private", "protected", "public", "readonly", "static"]

/-- Whether a parenthesis begins the parameters of an arrow. -/
def guessParams (l : Lexeme) : Parse Guess := do
  let second := l.after
  let third := second.after
  let ctx ← read
  match second.token with
  | .punct p =>
    if p = ")" then
      match third.token with
      | .punct q => return if q = "=>" || q = ":" || q = "\x7b" then .yes else .no
      | _ => return .no
    else if p = "[" || p = "\x7b" then return .maybe
    else return if p = "..." then .yes else .no
  | .word n _ =>
    match third.token with
    | .word m _ =>
      return if n.oneOf modifierWords && isName ctx m && m ≠ "as" then .yes else .no
    | .punct p =>
      if !(isName ctx n || n = "this") then return .no
      else if p = ":" then return .yes
      else if p = "?" then
        match third.after.token with
        | .punct q => return if q = ":" || q = "," || q = "=" || q = ")" then .yes else .no
        | _ => return .no
      else return if p = "," || p = "=" || p = ")" then .maybe else .no
    | _ => return .no
  | _ => return .no

/-- Whether an angle bracket begins the type parameters of an arrow, which need a
    comma, a bound or a default since it would begin an element otherwise. -/
def guessTypeParams (l : Lexeme) : Guess :=
  let second := l.after
  let (first, next) :=
    if second.token = .word "const" true then (second.after, second.after.after)
    else (second, second.after)
  match first.token, next.token with
  | .word _ _, .punct p => if p = "," || p = "=" then .yes else .no
  | .word _ _, .word m _ =>
    if m = "extends" then
      match next.after.token with
      | .punct p => if p = "=" || p.head? = some '>' || p = "/" then .no else .yes
      | _ => .yes
    else .no
  | _, _ => .no

/-- Whether an arrow begins with a lexeme, after `async` if that is there. -/
def guessHead (l : Lexeme) : Parse Guess := do
  match l.token with
  | .punct p =>
    if p = "(" then guessParams l
    else if p = "<" && (← typed) then return guessTypeParams l
    else return .no
  | _ => return .no

/-- Whether an arrow with parentheses stands at the cursor. -/
def guessArrow : Parse Guess := do
  let here := (← get).toLexeme
  if here.token = .word "async" true then
    let next := here.after
    if next.newline then return .no else guessHead next
  else guessHead here

/-- An arrow with parentheses, if one stands at the cursor. Where a colon may be
    that of a conditional, a result type is one only if a colon follows the
    arrow as well. -/
def fullArrow? : Parse (Option Node) := do
  let s ← start
  let async ← isWord "async"
  let finish (head : Node × Node × Node) : Parse Node := do
    node (.arrow { async }) s [head.1, head.2.1, head.2.2, ← arrowBody self async]
  match ← guessArrow with
  | .no => return none
  | .yes =>
    let a ← within ({ · with arrowResults := true }) do finish (← arrowHead self)
    return some a
  | .maybe =>
    if (← get).noArrows.contains s then return none
    let strict := !(← read).arrowResults
    let found ← attempt do
      let head ← arrowHead self
      if strict && !head.2.2.isAbsent then
        let a ← finish head
        check (← isPunct ":")
        return Sum.inr a
      else return Sum.inl head
    match found with
    | some (.inl head) => return some (← finish head)
    | some (.inr a) => return some a
    | none =>
      modify fun c => { c with noArrows := s :: c.noArrows }
      return none

/-- An arrow, if one stands at the cursor that does not begin like an
    expression. -/
def arrow? : Parse (Option Node) := do
  if let some a ← fullArrow? self then return some a
  if ← isWord "async" then
    let s ← start
    let next ← peek
    match next.token with
    | .word m _ =>
      if !next.newline && next.after.token = .punct "=>" && isName (← read) m then
        advance
        let p ← within ({ · with await := true }) bindingName
        return some (← simpleArrow self s true p)
      else return none
    | _ => return none
  return none

/-- Whether a word at the cursor is a modifier, and not the name of a member: one
    follows on the same line, or on any after `static`. -/
def isModifier : Parse Bool := do
  let next ← peek
  if next.newline && !(← isWord "static") then return false
  match next.token with
  | .punct p => return p = "[" || p = "\x7b" || p = "*"
  | .word _ _ | .privateName _ | .string _ _ _ | .number _ | .bigint _ => return true
  | _ => return false

/-- Reads the words before a member of a class. -/
def memberModifiers : Parse (List Text) :=
  loop [] fun mods => do
    match ← token with
    | .word n true =>
      let known := n = "static" || n = "accessor" || ((← typed) && n.oneOf ["declare", "public",
        "private", "protected", "abstract", "override", "readonly"])
      if known && (← isModifier) then
        advance
        return .more (n :: mods)
      else return .done mods
    | _ => return .done mods

/-- An index signature `[key: type]: type`, if one stands at the cursor. -/
def indexSignature? (s : Nat) (mods : List Text) : Parse (Option Node) := do
  if !((← typed) && (← isPunct "[")) then return none
  attempt do
    advance
    let n ← name
    expect ":"
    let k ← self .type
    expect "]"
    expect ":"
    let t ← self .type
    node (.indexSignature mods n) s [k, t]

/-- Whether the token ends the name of a member. -/
def endsName : Parse Bool := do
  let next ← peek
  match next.token with
  | .punct p =>
    return p = "(" || p = "=" || p = ";" || p = "\x7d" || p = "," || p = ":" || p = "?" || p = "!"
      || p = "<"
  | .eof => return true
  | _ => return false

/-- What a method is read with: its role, and whether it is `async` and a
    generator. -/
def methodMarks : Parse (Role × Bool × Bool) := do
  match ← token with
  | .word n true =>
    if n.oneOf ["get", "set"] && !(← endsName) && !((← peek).token = .punct "*") then
      advance
      return (if n = "get" then .getter else .setter, false, false)
    else if n = "async" && !(← endsName) && !(← peek).newline then
      advance
      return (.method, true, ← eat "*")
    else return (.method, false, false)
  | _ => return (.method, false, ← eat "*")

/-- The name of a member of a class, unless it is computed. -/
def memberName? (key : Node) (computed : Bool) : Option Text :=
  match key.kind with
  | .word n | .string n _ => if computed then none else some n
  | _ => none

/-- Whether a method of a class can have its name: the constructor is a plain
    method, and there is no static `prototype`. -/
def methodNameOk (mods : List Text) (plain computed : Bool) (key : Node) : Bool :=
  let isStatic := mods.contains "static"
  key.kind ≠ .privateName "constructor" &&
    match memberName? key computed with
    | some n => !(isStatic && n = "prototype") && !(!isStatic && n = "constructor" && !plain)
    | none => true

/-- Whether a field of a class can have its name. -/
def fieldNameOk (mods : List Text) (computed : Bool) (key : Node) : Bool :=
  key.kind ≠ .privateName "constructor" &&
    match memberName? key computed with
    | some n => !(mods.contains "static" && n = "prototype") && n ≠ "constructor"
    | none => true

/-- Whether a member of a class is its constructor. -/
def isConstructor (mods : List Text) (role : Role) (computed : Bool) (key : Node) : Bool :=
  role = .method && !mods.contains "static" && memberName? key computed = some "constructor"

/-- Whether some words can stand before a method of a class. -/
def methodModifiersOk (mods : List Text) : Bool :=
  mods.all fun m => !m.oneOf ["declare", "readonly", "accessor"]

/-- Whether some words can stand before a field of a class. -/
def fieldModifiersOk (mods : List Text) : Bool :=
  !mods.contains "accessor" || mods.all fun m => !m.oneOf ["declare", "readonly"]

/-- Whether a function can be a constructor: it has no types of its own, and it
    declares none of `this`. -/
def constructorOk : Node → Bool
  | .mk (.function _) _ (_ :: ts :: ps :: _) =>
    ts.isAbsent && ps.parts.all (·.kind ≠ .thisParam)
  | _ => true

/-- Whether some words can stand before the constructor of a class. -/
def constructorModifiersOk (mods : List Text) : Bool :=
  mods.all (·.oneOf ["public", "private", "protected"])

/-- Whether some words can stand before a key: a private name has no word that says
    who may use it. -/
def keyModifiersOk (mods : List Text) (key : Node) : Bool :=
  match key.kind with
  | .privateName _ => mods.all fun m => !m.oneOf ["public", "private", "protected"]
  | _ => true

/-- A member of a class. Only members that can be replaced have decorators. -/
def classMember : Parse Node := do
  let s ← start
  let ds ← decorators self
  if (← isWord "static") && (← peek).token = .punct "\x7b" then
    check ds.isAbsent
    advance
    advance
    let b ← within (fun c => { c with await := true, yield := false, returnAllowed := false })
      (until_ "\x7d" (self .statement))
    return ← node .staticBlock s b
  let mods ← memberModifiers
  check (modifiersOk mods)
  if let some i ← indexSignature? self s mods then
    check (ds.isAbsent && mods.all (·.oneOf ["static", "readonly"]))
    semicolon
    return i
  let (role, async, generator) ← methodMarks
  let (key, computed) ← propertyKey self
  check (keyModifiersOk mods key)
  let optional ← if ← typed then eat "?" else pure false
  if (← isPunct "(") || ((← typed) && (← isPunct "<")) then
    let f ← methodFunction self async generator
    check (takesArguments (← typed) role f)
    check (methodNameOk mods (role = .method && !async && !generator) computed key)
    check (methodModifiersOk mods && (ds.isAbsent || hasBody f))
    if isConstructor mods role computed key then
      check (ds.isAbsent && constructorModifiersOk mods && constructorOk f)
    node (.method { modifiers := mods, role, computed, optional }) s [ds, key, f]
  else
    check (role = .method && !async && !generator && fieldNameOk mods computed key)
    check (fieldModifiersOk mods)
    let definite ← if ← typed then eat "!" else pure false
    check (!(optional && (definite || mods.contains "accessor")))
    let t ← typeNote self
    let v ←
      if ← eat "=" then
        within (fun c => { c with await := false, yield := false }) (withIn (self .assignment))
      else pure Node.absent
    semicolon
    node (.field { modifiers := mods, computed, optional, definite }) s [ds, key, t, v]

/-- The body of a class. -/
def classBody : Parse Node := do
  let s ← start
  expect "\x7b"
  let ms ← loop [] fun items => do
    if ← eat "\x7d" then return .done items.reverse
    if ← eat ";" then return .more items
    return .more ((← classMember self) :: items)
  node .classBody s ms

/-- Type arguments in angle brackets. -/
def typeArguments : Parse Node := do
  let s ← start
  check (← isChar '<')
  advanceChar
  node .typeArguments s (← angled (self .type))

/-- Type arguments, if there are any. -/
def typeArguments? : Parse Node := do
  if (← typed) && (← isChar '<') then typeArguments self else return Node.absent

/-- A name of a type, with the names of the modules it is in. -/
def typeNameRule : Parse Node := do
  let s ← start
  let n ← word
  let first ← node (.typeName n) s []
  loop first fun left => do
    if ← eat "." then return .more (← node (.qualified (← word)) s [left])
    return .done left

/-- Type arguments on the same line. -/
def sameLineArguments : Parse Node := do
  if ← newline then return Node.absent else typeArguments? self

/-- A type that a name refers to. -/
def typeReference : Parse Node := do
  let s ← start
  let n ← typeNameRule
  node .typeReference s [n, ← sameLineArguments self]

/-- The interfaces after `extends` or `implements`. -/
def bases : Parse (List Node) :=
  separated "," do
    let s ← start
    let t ← typeReference self
    node .heritage s [t]

/-- A class from the keyword on; `s` is where it begins. -/
def classAt (s : Nat) (ds : Node) (form : ClassForm) : Parse Node := do
  expectWord "class"
  let id ←
    if (← isPunct "\x7b") || (← isWord "extends") || (← isWord "implements") ||
        ((← typed) && (← isPunct "<")) then
      pure Node.absent
    else bindingName
  let ts ← typeParams self
  let (base, args) ←
    if ← eatWord "extends" then
      let b ← self .leftHand
      pure (b, ← typeArguments? self)
    else pure (Node.absent, Node.absent)
  let ifaces ←
    if (← typed) && (← isWord "implements") then
      let i ← start
      advance
      let bs ← bases self
      node .heritage i bs
    else pure Node.absent
  let b ← classBody self
  node (.class form) s [ds, id, ts, base, args, ifaces, b]

/-- A class with decorators before it, as an expression. -/
def classExpression : Parse Node := do
  let s ← start
  let ds ← decorators self
  let abstract ← if ds.isAbsent || !(← typed) then pure false else eatWord "abstract"
  classAt self s ds { abstract }

end Unhook.Grammar
