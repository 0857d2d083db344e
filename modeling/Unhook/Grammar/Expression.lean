import Unhook.Grammar.Function

/-!
# Expressions

The rules for expressions, from the tightest to the loosest: literals and names
(`primary`), members and calls (`leftHand`), operators with one operand
(`unaryRule`) and with two (`operandRule`), conditionals and assignments
(`assignmentRule`), and lists with commas (`expressionRule`).
-/

namespace Unhook.Grammar

open Parse

variable (self : Rules)

/-- The text of a template up to its end or to an expression in it: the text,
    whether an expression follows, the width, and what comes after. -/
def scanTemplate : Text → Option (Text × Bool × Nat × Text)
  | [] => none
  | '`' :: t => some ([], false, 1, t)
  | '$' :: '{' :: t => some ([], true, 2, t)
  | '\\' :: c :: t => (scanTemplate t).map fun (a, more, w, r) =>
      ('\\' :: c :: a, more, w + 1 + c.utf8Size, r)
  | c :: t => (scanTemplate t).map fun (a, more, w, r) => (c :: a, more, w + c.utf8Size, r)

/-- The raw text of a template: every line break is a line feed. -/
def normalizeBreaks : Text → Text
  | [] => []
  | '\r' :: '\n' :: t => '\n' :: normalizeBreaks t
  | '\r' :: t => '\n' :: normalizeBreaks t
  | c :: t => c :: normalizeBreaks t

/-- Whether every escape of a raw text stands for something; `skip`
    characters of an escape are still to be passed over. -/
def escapesOk : (skip : Nat) → Text → Bool
  | _, [] => true
  | skip + 1, _ :: t => escapesOk skip t
  | 0, '\\' :: t =>
    match t with
    | '0' :: d :: _ => !Text.isDigit d && escapesOk 1 t
    | d :: _ =>
      if d ≠ '0' && Text.isDigit d then false
      else match Quoted.escape? t with
        | some (_, k) => escapesOk k t
        | none => false
    | [] => false
  | 0, _ :: t => escapesOk 0 t

/-- Reads a template from its opening quote on: its texts and its parts. In a
    template without a tag every escape must stand for something. -/
def templateParts (tagged : Bool) (part : Parse Node) : Parse (List Text × List Node) := do
  loop ([], []) fun (texts, parts) => do
    -- The cursor stands at the opening quote or at the brace after a part.
    let c ← get
    match c.here with
    | [] => fail
    | d :: t =>
      match scanTemplate t with
      | none => fail
      | some (raw, more, width, rest) =>
        let text := normalizeBreaks raw
        check (tagged || escapesOk 0 text)
        jump (c.start + d.utf8Size + width) rest
        if more then
          let e ← part
          check (← isPunct "\x7d")
          return .more (text :: texts, e :: parts)
        else return .done ((text :: texts).reverse, parts.reverse)

/-- A template. -/
def template (tagged : Bool) : Parse Node := do
  let s ← start
  let (texts, parts) ← templateParts tagged (withIn (self .expression))
  node (.template texts) s parts

/-- The pattern of a regular expression up to the slash that ends it: the
    pattern, and what follows. -/
def scanRegex : (inClass : Bool) → Text → Option (Text × Text)
  | _, [] => none
  | inClass, '\\' :: c :: t =>
    if Text.isLineEnd c then none
    else (scanRegex inClass t).map fun (a, r) => ('\\' :: c :: a, r)
  | inClass, c :: t =>
    if Text.isLineEnd c then none
    else if c = '/' && !inClass then some ([], t)
    else
      let next := if c = '[' then true else if c = ']' then false else inClass
      (scanRegex next t).map fun (a, r) => (c :: a, r)

/-- The flags of a regular expression, in the order in which they are
    written. Two of them exclude each other. -/
def flagOrder : Text := "dgimsuvy"

/-- A regular expression, from its first slash on. -/
def regex : Parse Node := do
  let c ← get
  match c.here with
  | '/' :: t =>
    match scanRegex false t with
    | none => fail
    | some (pattern, r) =>
      let (flags, rest) := r.span Text.isNamePart
      check (flags.all (· ∈ flagOrder) && flags.eraseDups.length = flags.length)
      check (!('u' ∈ flags && 'v' ∈ flags))
      jump (c.start + 2 + Text.byteLength pattern + flags.length) rest
      node (.regex pattern (flagOrder.filter (· ∈ flags))) c.start []
  | _ => fail

/-- An argument of a call. -/
def argument : Parse Node := do
  let s ← start
  if ← eat "..." then node .spread s [← withIn (self .assignment)]
  else withIn (self .assignment)

/-- The arguments of a call, in parentheses. -/
def arguments : Parse (List Node) := do
  expect "("
  within ({ · with decorator := false }) (commaUntil ")" (argument self))

/-- A property of an object. -/
def objectProperty : Parse Node := do
  let s ← start
  if ← eat "..." then return ← node .spread s [← withIn (self .assignment)]
  let here ← nameHere?
  let isNext (p : Text) : Parse Bool := do return (← peek).token = .punct p
  if here.isSome && ((← isNext ",") || (← isNext "\x7d") || (← isNext "=")) then
    let n ← name
    let key ← node (.word n) s []
    let value ← node (.identifier n) s []
    let value ←
      if ← eat "=" then
        let d ← withIn (self .assignment)
        node .defaulted s [value, d]
      else pure value
    return ← node (.property { shorthand := true }) s [key, value]
  let (role, async, generator) ← methodMarks
  let (key, computed) ← propertyKey self
  check (match key.kind with | .privateName _ => false | _ => true)
  if (← isPunct "(") || ((← typed) && (← isPunct "<")) then
    let f ← methodFunction self async generator
    check (takesArguments (← typed) role f)
    node (.property { role, computed }) s [key, f]
  else
    check (role = .method && !async && !generator)
    expect ":"
    node (.property { computed }) s [key, ← withIn (self .assignment)]

/-- An expression that remembers the parentheses it was written in. -/
def remember : Node → Node
  | .mk (.arrow f) s ps => .mk (.arrow { f with parens := true }) s ps
  | .mk (.function f) s ps => .mk (.function { f with parens := true }) s ps
  | n => n

/-- An expression in parentheses. -/
def parenthesized : Parse Node := do
  expect "("
  let e ← within ({ · with decorator := false }) (withIn (self .expression))
  expect ")"
  return remember e

/-- The arguments of an import, which are the source and perhaps options; `s` is
    where it begins. -/
def importCall (s : Nat) (phase : Option Text) : Parse Node := do
  expect "("
  let args ← commaUntil ")" (withIn (self .assignment))
  match args with
  | [a] => node (.importCall phase) s [a, Node.absent]
  | [a, b] => node (.importCall phase) s [a, b]
  | _ => fail

/-- What begins with `import` in an expression. -/
def importExpression : Parse Node := do
  let s ← start
  expectWord "import"
  if ← eat "." then
    if ← eatWord "meta" then node .importMeta s []
    else
      let phase ← word
      check (phase.oneOf ["defer", "source"])
      importCall self s (some phase)
  else importCall self s none

/-- Words that an expression can begin with although they are no names. -/
def startingWords : List String :=
  ["this", "super", "null", "true", "false", "function", "class", "new", "delete", "void", "typeof",
    "import"]

/-- Whether the token can follow type arguments: it begins no expression, or it
    is an operator between two, or it is on the next line. -/
def followsTypeArguments : Parse Bool := do
  match ← token with
  | .backquote => return true
  | .punct p =>
    if p = "(" then return true
    if p = "<" || p.head? = some '>' || p = "+" || p = "-" then return false
    return (← newline) || !(p.oneOf ["[", "\x7b", "~", "!", "++", "--", "@"])
  | .word n _ =>
    return (← newline) || n = "as" || n = "satisfies" ||
      (n.oneOf reserved && !n.oneOf startingWords)
  | .eof => return true
  | _ => newline

/-- Type arguments in an expression. A sign of equality that touches the bracket
    makes it an operator. -/
def callTypeArguments? : Parse (Option Node) := do
  if !((← typed) && (← isChar '<')) then return none
  attempt do
    let t ← typeArguments self
    check (!((← isChar '=') && (← start) = (← get).lastStop))
    check (← followsTypeArguments)
    return t

/-- An expression without the type arguments after it, and these. -/
def splitTypeArguments : Node → Node × Node
  | .mk .instantiation _ [e, t] => (e, t)
  | e => (e, Node.absent)

/-- What begins with `new`. Nothing is made of an import. -/
def newExpression : Parse Node := do
  let s ← start
  expectWord "new"
  if ← eat "." then
    expectWord "target"
    return ← node .newTarget s []
  let (callee, targs) := splitTypeArguments (← self .callee)
  check (match callee.kind with | .importCall _ => false | _ => true)
  let args ← if ← isPunct "(" then arguments self else pure []
  node (.new false) s (callee :: targs :: args)

/-- A literal or a name, or an expression in brackets of some kind. -/
def primary : Parse Node := do
  let s ← start
  match ← token with
  | .number v => advance; node (.number v) s []
  | .bigint d => advance; node (.bigint d) s []
  | .string v h _ => advance; node (.string v h) s []
  | .backquote => template self false
  | .punct p =>
    if p = "(" then parenthesized self
    else if p = "[" then
      advance
      node .array s (← elements s (argument self))
    else if p = "\x7b" then
      advance
      node .object s (← commaUntil "\x7d" do
        let property ← objectProperty self
        noteTrailing s "\x7d"
        return property)
    else if p = "/" || p = "/=" then regex
    else if p = "@" then self .classExpression
    else fail
  | .word n plain =>
    if !plain then
      check (isName (← read) n)
      advance
      node (.identifier n) s []
    else if n = "this" then advance; node .this s []
    else if n = "null" then advance; node .null s []
    else if n = "true" then advance; node (.boolean true) s []
    else if n = "false" then advance; node (.boolean false) s []
    else if n = "super" then
      advance
      check ((← isPunct ".") || (← isPunct "[") || (← isPunct "("))
      node .superRef s []
    else if n = "function" || (← isAsyncFunction) then self .functionExpression
    else if n = "class" then self .classExpression
    else if n = "new" then newExpression self
    else if n = "import" then importExpression self
    else
      let n ← name
      node (.identifier n) s []
  | _ => fail

/-- The node with its chain ended. -/
def endChain : Node → Node
  | .mk (.call l pure) s ps => .mk (.call { l with ends := true } pure) s ps
  | .mk (.member l n) s ps => .mk (.member { l with ends := true } n) s ps
  | .mk (.index l) s ps => .mk (.index { l with ends := true }) s ps
  | .mk (.privateMember l n) s ps => .mk (.privateMember { l with ends := true } n) s ps
  | .mk (.nonNull _) s ps => .mk (.nonNull true) s ps
  | .mk .instantiation s [e, t] => .mk .instantiation s [endChain e, t]
  | n => n

/-- One more member or call after an expression that begins at `s`, if there
    is one; the answer tells whether a chain has begun. -/
def link? (s : Nat) (calls : Bool) (chained : Bool) (e : Node) :
    Parse (Option (Node × Bool)) := do
  match ← token with
  | .backquote =>
    check (!chained)
    let (tag, targs) := splitTypeArguments e
    let t ← template self true
    return some (← node .taggedTemplate s [tag, targs, t], chained)
  | .punct p =>
    if p = "." then
      advance
      match ← token with
      | .word n _ => advance; return some (← node (.member .plain n) s [e], chained)
      | .privateName n => advance; return some (← node (.privateMember .plain n) s [e], chained)
      | _ => fail
    else if p = "[" then
      if (← read).decorator then return none
      advance
      let i ← withIn (self .expression)
      expect "]"
      return some (← node (.index .plain) s [e, i], chained)
    else if p = "(" && calls then
      let (callee, targs) := splitTypeArguments e
      let args ← arguments self
      return some (← node (.call .plain false) s (callee :: targs :: args), chained)
    else if p = "?." then
      check calls
      let link : Link := { optional := true }
      advance
      match ← token with
      | .word n _ => advance; return some (← node (.member link n) s [e], true)
      | .privateName n => advance; return some (← node (.privateMember link n) s [e], true)
      | .punct q =>
        if q = "[" then
          advance
          let i ← withIn (self .expression)
          expect "]"
          return some (← node (.index link) s [e, i], true)
        else
          let targs := (← callTypeArguments? self).getD Node.absent
          let args ← arguments self
          return some (← node (.call link false) s (e :: targs :: args), true)
      | _ => fail
    else if p = "!" && (← typed) && !(← newline) then
      advance
      return some (← node (.nonNull false) s [e], chained)
    else
      match ← callTypeArguments? self with
      | some t => return some (← node .instantiation s [e, t], chained)
      | none => return none
  | _ => return none

/-- Members and calls, with calls or without. -/
def links (calls : Bool) : Parse Node := do
  let s ← start
  let e ← primary self
  loop (e, false) fun (e, chained) => do
    match ← link? self s calls chained e with
    | some next => return .more next
    | none => return .done (if chained then endChain e else e)

/-- The operator that the token is, with one operand. -/
def unaryOp? : Parse (Option UnaryOp) := do
  match ← token with
  | .punct s | .word s true => return UnaryOp.all.find? (·.symbol = s)
  | _ => return none

/-- Whether the token is `++` or `--`, and which. -/
def updateOp? : Parse (Option Bool) := do
  if ← isPunct "++" then return some true
  if ← isPunct "--" then return some false
  return none

/-- Whether a word follows the token on its line, which `allowed` does not
    accept. -/
def wordFollows (allowed : Text → Bool) : Parse Bool := do
  let next ← peek
  match next.token with
  | .word n _ => return !next.newline && !allowed n
  | _ => return false

/-- An operand with the operators before and after it. An operator before it
    cannot stand on the left of a power. An element is an operand as a whole:
    nothing is a member of it. The name `await` is not used before a word, but
    for the one in the head of a loop. -/
def unaryRule : Parse Node := do
  let s ← start
  if let some op ← unaryOp? then
    advance
    let e ← self .unary
    check (!(← isPunct "**"))
    return ← node (.unary op) s [e]
  let awaits ← isWord "await"
  if awaits && (← read).await then
    advance
    let e ← self .unary
    check (!(← isPunct "**"))
    return ← node .await s [e]
  if let some increment ← updateOp? then
    advance
    match simpleTarget? (← self .unary) with
    | some t => return ← node (.update increment true) s [t]
    | none => fail
  if ← isPunct "<" then
    let e ← self .element
    advanceChar
    return e
  check (!(awaits && (← wordFollows (· = "of"))))
  let e ← links self true
  match ← updateOp? with
  | some increment =>
    if ← newline then return e
    match simpleTarget? e with
    | some t =>
      advance
      node (.update increment false) s [t]
    | none => fail
  | none => return e

/-- The operator that the token is, with two operands. -/
def binaryOp? : Parse (Option BinaryOp) := do
  match ← token with
  | .punct s => return BinaryOp.ofSymbol? s
  | .word s true =>
    if s = "instanceof" then return some .instanceof
    else if s = "in" && (← read).inAllowed then return some .in
    else return none
  | _ => return none

/-- The logical operator of an expression, if it has one. -/
def logicalOp? (e : Node) : Option BinaryOp :=
  match e.kind with
  | .binary op => if op.isLogical then some op else none
  | _ => none

/-- Whether `??` is mixed with the other logical operators: an operand is made
    with one of those and does not begin with a parenthesis. The left operand
    counts only if the right one is not logical. -/
def mixes (op : BinaryOp) (left right : Node) (leftParens rightParens : Bool) : Bool :=
  op = .coalesce &&
    match logicalOp? right with
    | some inner => !rightParens && inner != .coalesce
    | none => !leftParens && (logicalOp? left).any (· != .coalesce)

/-- The word `const` in place of a type. -/
def constType : Parse Node := do
  let s ← start
  expectWord "const"
  node .typeReference s [.mk (.typeName "const") (← spanFrom s) [], Node.absent]

/-- The operators after an operand, which begins at `s`, that bind more tightly
    than `level`. -/
def binaryRest (s level : Nat) (first : Node) (firstParens : Bool) : Parse Node :=
  loop first fun left => do
    if (← typed) && ((← isWord "as") || (← isWord "satisfies")) && !(← newline) &&
        level < Level.compare then
      let satisfies ← isWord "satisfies"
      advance
      let t ← if ← isWord "const" then constType else self .type
      return .more (← node (.ascription satisfies) s [left, t])
    match ← binaryOp? with
    | none => return .done left
    | some op =>
      let stop := if op = .pow then op.level < level else op.level ≤ level
      if stop then return .done left
      advance
      let rightParens ← isPunct "("
      let right ← self (.operand op.level)
      check (!mixes op left right firstParens rightParens)
      return .more (← node (.binary op) s [left, right])

/-- Takes note in an expression that its first call has no effect but its
    result. -/
def markPure : Node → Node
  | .mk (.call l _) s ps => .mk (.call l true) s ps
  | .mk (.new _) s ps => .mk (.new true) s ps
  | .mk (.binary op) s (e :: ps) => .mk (.binary op) s (markPure e :: ps)
  | .mk .conditional s (e :: ps) => .mk .conditional s (markPure e :: ps)
  | n => n

/-- Operands with the operators between them that bind more tightly than
    `level`. A private name is one only before `in`. -/
def operandRule (level : Nat) : Parse Node := do
  let s ← start
  let parens ← isPunct "("
  match ← token with
  | .privateName n =>
    advance
    let left ← node (.privateName n) s []
    check ((← read).inAllowed && level < Level.compare)
    expectWord "in"
    let right ← self (.operand Level.compare)
    binaryRest self s level (← node (.binary .in) s [left, right]) parens
  | _ =>
    let pure := (← get).notes.pure
    let left ← unaryRule self
    binaryRest self s level (if pure then markPure left else left) parens

/-- A conditional whose test has been read, or the test; `s` is where it
    begins. -/
def conditional (s : Nat) (test : Node) : Parse Node := do
  if ← eat "?" then
    let a ← within ({ · with inAllowed := true, arrowResults := false }) (self .assignment)
    expect ":"
    let b ← self .assignment
    node .conditional s [test, a, b]
  else return test

/-- The assignment that the token is. -/
def assignOp? : Parse (Option (Option BinaryOp)) := do
  match ← token with
  | .punct s => return assignOfSymbol? s
  | _ => return none

/-- What follows `yield`. -/
def yieldRest (s : Nat) : Parse Node := do
  if ← newline then return ← node (.yield false) s [Node.absent]
  if ← eat "*" then return ← node (.yield true) s [← self .assignment]
  let ends ← match ← token with
    | .punct p => pure (p = ")" || p = "]" || p = "\x7d" || p = "," || p = ";" || p = ":")
    | .eof => pure true
    | .word n true => pure (n = "in")
    | _ => pure false
  if ends then node (.yield false) s [Node.absent]
  else node (.yield false) s [← self .assignment]

/-- Takes note that calls of a function have no effects. -/
def markInert : Node → Node
  | .mk (.arrow f) s ps => .mk (.arrow { f with inert := true }) s ps
  | .mk (.function f) s ps => .mk (.function { f with inert := true }) s ps
  | n => n

/-- An assignment to an expression that has been read; `s` is where it begins, and
    `parens` tells whether it begins with a parenthesis. A pattern stands in
    none. -/
def assignment (s : Nat) (parens : Bool) (op : Option BinaryOp) (left : Node) : Parse Node := do
  check (!(parens && (left.kind = .array || left.kind = .object)))
  let trailing := (← get).trailing
  match if op.isNone then assignTarget? trailing left else simpleTarget? left with
  | none => fail
  | some t =>
    advance
    let right ← self .assignment
    node (.assign op) s [t, right]

/-- One expression. The name `yield` is not used before a word. -/
def assignmentRule : Parse Node := do
  let s ← start
  let noted := if (← get).notes.inert then markInert else id
  if ← isWord "yield" then
    if (← read).yield then
      advance
      return ← within ({ · with arrowResults := true }) (yieldRest self s)
    check (!(← wordFollows fun _ => false))
  if let some a ← arrow? self then return noted a
  let parens ← isPunct "("
  let left ← operandRule self 0
  if let .identifier n := left.kind then
    if ← isPunct "=>" then
      return noted (← simpleArrow self s false (.mk (.binding n) left.span []))
  match ← assignOp? with
  | some op => assignment self s parens op left
  | none => return noted (← conditional self s left)

/-- Expressions, perhaps several with commas between them. -/
def expressionRule : Parse Node := do
  let s ← start
  let first ← assignmentRule self
  if ← isPunct "," then
    let es ← loop [first] fun es => do
      if ← eat "," then return .more ((← self .assignment) :: es)
      return .done es.reverse
    node .sequence s es
  else return first

end Unhook.Grammar
