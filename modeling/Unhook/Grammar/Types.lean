import Unhook.Grammar.Expression

/-!
# Types

Types, and the declarations that only types are made of: aliases, interfaces,
enumerations and namespaces.
-/

namespace Unhook.Grammar

open Parse

variable (self : Rules)

/-- Types that are words. -/
def typeWords : List String :=
  ["any", "unknown", "never", "void", "null", "undefined", "string", "number", "boolean",
    "symbol", "object", "bigint", "this"]

/-- Reads where `extends` after a type makes it conditional, or where it does
    not. -/
def withConditional {α : Type} (allowed : Bool) (p : Parse α) : Parse α :=
  within ({ · with conditionalTypes := allowed }) p

/-- The end of a member of a type. -/
def memberEnd : Parse Unit := do
  if ← eat ";" then return
  if ← eat "," then return
  if ← isPunct "\x7d" then return
  check (← newline)

/-- The parts of a signature after its name. -/
def signatureParts : Parse (List Node) := do
  let ts ← typeParams self
  let ps ← params self
  let r ← resultNote self
  return [ts, ps, r]

/-- The name of a member of a type. A number is kept as it is written in a
    literal. -/
def memberKey (literal : Bool) : Parse (Node × Bool) := do
  let c ← get
  let (key, computed) ← propertyKey self
  match literal, c.token with
  | true, .number _ => return (.mk (.numeral c.raw) key.span [], false)
  | _, _ => return (key, computed)

/-- A member of a type, which is a literal or an interface. -/
def typeMember (literal : Bool) : Parse Node := do
  let s ← start
  if (← isPunct "(") || (← isPunct "<") then
    let parts ← signatureParts self
    memberEnd
    return ← node (.callSignature false) s parts
  if (← isWord "new") && ((← peek).token = .punct "(" || (← peek).token = .punct "<") then
    advance
    let parts ← signatureParts self
    memberEnd
    return ← node (.callSignature true) s parts
  let readonly_ ←
    if (← isWord "readonly") && (← isModifier) then
      advance
      pure true
    else pure false
  let mods : List Text := if readonly_ then ["readonly"] else []
  if let some i ← indexSignature? self s mods then
    memberEnd
    return i
  let (role, async, generator) ← methodMarks
  check (!async && !generator)
  let (key, computed) ← memberKey self literal
  let optional ← eat "?"
  if (← isPunct "(") || (← isPunct "<") then
    let parts ← signatureParts self
    memberEnd
    node (.methodSignature { modifiers := mods, role, computed, optional }) s (key :: parts)
  else
    check (role = .method)
    let t ← typeNote self
    memberEnd
    node (.propertySignature { modifiers := mods, computed, optional }) s [key, t]

/-- Members of a type, in braces. -/
def typeMembers (literal : Bool) : Parse (List Node) := do
  expect "\x7b"
  until_ "\x7d" (typeMember self literal)

/-- A sign or nothing, and then a word or a symbol; answers what was read. -/
def marked (isIt : Parse Bool) (text : Text) : Parse (Option Text) := do
  if (← isPunct "+") || (← isPunct "-") then
    let sign : Text := if ← isPunct "+" then "+" else "-"
    advance
    check (← isIt)
    advance
    return some (sign ++ text)
  if ← isIt then
    advance
    return some text
  return none

/-- Whether a type whose members are mapped stands at the cursor. -/
def isMapped : Parse Bool := lookahead do
  expect "\x7b"
  if (← eat "+") || (← eat "-") then return ← isWord "readonly"
  discard (eatWord "readonly")
  expect "["
  discard name
  isWord "in"

/-- A type whose members are those of another, each mapped. -/
def mappedType : Parse Node := do
  let s ← start
  expect "\x7b"
  let readonly_ ← marked (isWord "readonly") "readonly"
  expect "["
  let n ← name
  expectWord "in"
  let constraint ← self .type
  let renamed ← if ← eatWord "as" then self .type else pure Node.absent
  expect "]"
  let optional ← marked (isPunct "?") "?"
  let t ← typeNote self
  if !(← eat ";") then discard (eat ",")
  expect "\x7d"
  node (.mappedType n readonly_ optional) s [constraint, renamed, t]

/-- The label of a member of a tuple, and whether the member may be missing, if
    there is one. -/
def tupleLabel? : Parse (Option (Text × Bool)) := do
  let next ← peek
  match ← token, next.token with
  | .word n _, .punct p =>
    if p = ":" then
      advance
      advance
      return some (n, false)
    else if p = "?" && next.after.token = .punct ":" then
      advance
      advance
      advance
      return some (n, true)
    else return none
  | _, _ => return none

/-- A member of a tuple. One that stands for many is not left out. -/
def tupleMember : Parse Node := do
  let s ← start
  let rest ← eat "..."
  match ← tupleLabel? with
  | some (n, optional) =>
    check (!(optional && rest))
    node (.tupleMember (some n) optional rest) s [← self .type]
  | none => node (.tupleMember none false rest) s [← self .type]

/-- A literal as a type. Numbers are kept as they are written, and a template
    without types in it is an ordinary one. -/
def literalType : Parse Node := do
  let s ← start
  let literal (k : Kind) : Parse Node := do
    advance
    let span ← spanFrom s
    return .mk .literalType span [.mk k span []]
  let negative (k : Kind) : Parse Node := do
    advance
    let span ← spanFrom s
    return .mk .literalType span [.mk (.unary .minus) span [.mk k span []]]
  match ← token with
  | .string v h _ => literal (.string v h)
  | .number _ => literal (.numeral (← get).raw)
  | .bigint d => literal (.bigint d)
  | .backquote =>
    let (texts, parts) ← templateParts false (self .type)
    if parts.isEmpty then node .literalType s [← node (.template texts) s []]
    else node (.templateType texts) s parts
  | .punct p =>
    check (p = "-")
    advance
    match ← token with
    | .number _ => negative (.numeral (← get).raw)
    | .bigint d => negative (.bigint d)
    | _ => fail
  | .word n _ =>
    check (n = "true" || n = "false")
    literal (.boolean (n = "true"))
  | _ => fail

/-- The path to what is taken from a module, after a dot. -/
def modulePath : Parse Node := do
  let s ← start
  let n ← word
  loop (← node (.word n) s []) fun left => do
    if ← eat "." then return .more (← node (.qualified (← word)) s [left])
    return .done left

/-- What another module exports, as a type. -/
def importType : Parse Node := do
  let s ← start
  expectWord "import"
  expect "("
  let a ← start
  let (path, halves) ← string
  let source ← node (.string path halves) a []
  let options ← if ← eat "," then withIn (self .assignment) else pure Node.absent
  check (options.isAbsent || options.kind = .object)
  expect ")"
  let q ← if ← eat "." then modulePath else pure Node.absent
  node .importType s [source, options, q, ← sameLineArguments self]

/-- Words that a type can begin with although they are no names. -/
def startingTypeWords : List String :=
  ["void", "null", "this", "typeof", "new", "true", "false", "import", "function"]

/-- Whether a type can begin with a lexeme. Parentheses that open there are passed
    over. -/
def startsType (ctx : Context) : (bound : Nat) → Lexeme → Bool
  | 0, _ => false
  | bound + 1, l =>
    match l.token with
    | .string _ _ _ | .number _ | .bigint _ | .backquote => true
    | .word n _ => isName ctx n || n.oneOf startingTypeWords
    | .punct p =>
      if p = "(" then
        match l.after.token with
        | .punct q => q = ")" || q = "@" || startsType ctx bound l.after
        | _ => startsType ctx bound l.after
      else if p = "-" then
        match l.after.token with
        | .number _ | .bigint _ => true
        | _ => false
      else p.oneOf ["\x7b", "[", "<", "|", "&", "*", "?", "!", "..."]
    | _ => false

/-- A statement that a condition holds, after the word for that. -/
def assertion (s : Nat) : Parse Node := do
  let n ← word
  let t ← if ← eatWord "is" then self .type else pure Node.absent
  node (.predicate true n) s [t]

/-- A type with a sign before it, or the sign alone, which stands for any type. -/
def nullableType (s : Nat) : Parse Node := do
  let alone ← match ← token with
    | .punct p => pure (p.head? = some '>' || p.oneOf [",", "\x7d", ")", "=", "|"])
    | _ => pure false
  if alone then node (.typeWord "unknown") s []
  else node (.markedType "?" true) s [← self .type]

/-- A type without operators. -/
def primaryType : Parse Node := do
  let s ← start
  match ← token with
  | .punct p =>
    if p = "(" then
      advance
      let t ← self .type
      expect ")"
      return t
    else if p = "[" then
      advance
      node .tuple s (← commaUntil "]" (tupleMember self))
    else if p = "\x7b" then
      if ← isMapped then mappedType self else node .typeLiteral s (← typeMembers self true)
    else if p = "?" then
      advance
      nullableType self s
    else if p = "!" then
      advance
      node (.markedType "!" true) s [← self .typeOperand]
    else literalType self
  | .word n plain =>
    let next ← peek
    if n = "typeof" then
      advance
      if ← isWord "import" then node .typeQuery s [← importType self, Node.absent]
      else
        let q ← typeNameRule
        node .typeQuery s [q, ← sameLineArguments self]
    else if n = "import" then importType self
    else if n = "true" || n = "false" then literalType self
    else if n = "this" && plain && next.token = .word "is" true && !next.newline then
      advance
      advance
      node (.predicate false n) s [← self .type]
    else if n.oneOf typeWords && next.token ≠ .punct "." then
      advance
      node (.typeWord n) s []
    else
      match next.token with
      | .word m _ =>
        if n = "asserts" && plain && !next.newline && (isName (← read) m || m = "this") then
          advance
          return ← assertion self s
      | _ => pure ()
      typeReference self
  | _ => literalType self

/-- A type with the signs and brackets after it. -/
def suffixedType : Parse Node := do
  let s ← start
  loop (← primaryType self) fun t => do
    if ← newline then return .done t
    if ← eat "[" then
      if ← eat "]" then return .more (← node .arrayType s [t])
      let i ← self .type
      expect "]"
      return .more (← node .indexedType s [t, i])
    if ← eat "!" then return .more (← node (.markedType "!" false) s [t])
    if ← isPunct "?" then
      let c ← get
      if startsType (← read) c.bound c.after then return .done t
      advance
      return .more (← node (.markedType "?" false) s [t])
    return .done t

/-- The bound of a type that is inferred, if there is one. Before a question mark
    it would belong to a conditional type. -/
def inferredBound : Parse Node := do
  let found ← attempt do
    expectWord "extends"
    let b ← withConditional false (self .type)
    check (!(← read).conditionalTypes || !(← isPunct "?"))
    return b
  return found.getD Node.absent

/-- A type with the words before it. Only arrays and tuples are read-only. -/
def typeOperandRule : Parse Node := do
  let s ← start
  match ← token with
  | .word n true =>
    if n.oneOf ["keyof", "unique", "readonly"] then
      advance
      let t ← self .typeOperand
      check (n ≠ "readonly" || t.kind = .arrayType || t.kind = .tuple)
      node (.typeOperator n) s [t]
    else if n = "infer" then
      advance
      let p ← start
      let m ← name
      let bound ← inferredBound self
      let t ← node (.typeParameter [] m) p [bound, Node.absent]
      node .inferType s [t]
    else withConditional true (suffixedType self)
  | _ => withConditional true (suffixedType self)

/-- Types with a symbol between them, which may also stand before the first. -/
def typeChain (symbol : Text) (kind : Kind) (item : Parse Node) : Parse Node := do
  let s ← start
  let leading ← eat symbol
  let first ← item
  if leading || (← isPunct symbol) then
    let ts ← loop [first] fun ts => do
      if ← eat symbol then return .more ((← item) :: ts)
      return .done ts.reverse
    node kind s ts
  else return first

/-- Whether the parenthesis at the cursor begins the parameters of a function. -/
def beginsParams : Parse Bool := lookahead do
  expect "("
  if (← isPunct ")") || (← isPunct "...") then return true
  discard modifiersOfParam
  if (← nameHere?).isSome || (← isWord "this") then advance
  else
    check ((← isPunct "[") || (← isPunct "\x7b"))
    discard (self .pattern)
  match ← token with
  | .punct p =>
    return p.oneOf [":", ",", "?", "="] || (p = ")" && (← peek).token = .punct "=>")
  | _ => return false

/-- The type of functions, if one stands at the cursor. -/
def functionType? : Parse (Option Node) := do
  let s ← start
  let abstract := (← isWord "abstract") && (← peek).token = .word "new" true
  let constructor_ := abstract || (← isWord "new")
  if constructor_ || (← isPunct "<") || ((← isPunct "(") && (← beginsParams self)) then
    if abstract then advance
    if constructor_ then advance
    let ts ← typeParams self
    let ps ← params self
    expect "=>"
    let r ← self .resultType
    return some (← node (.functionType constructor_ abstract) s [ts, ps, r])
  else return none

/-- A type. -/
def typeRule : Parse Node := do
  let s ← start
  if let some t ← functionType? self then return t
  let t ← typeChain "|" .union (typeChain "&" .intersection (typeOperandRule self))
  if (← read).conditionalTypes && (← isWord "extends") && !(← newline) then
    advance
    let bound ← withConditional false (self .type)
    expect "?"
    let a ← withConditional true (self .type)
    expect ":"
    let b ← withConditional true (self .type)
    node .conditionalType s [t, bound, a, b]
  else return t

/-- The type of a result, or a statement about a parameter. -/
def resultTypeRule : Parse Node := do
  let s ← start
  let next ← peek
  match ← nameHere?, next.token with
  | some n, .word ['i', 's'] true =>
    if next.newline then typeRule self
    else
      advance
      advance
      node (.predicate false n) s [← self .type]
  | _, _ => typeRule self

/-- An alias of a type; `s` is where it begins. -/
def typeAlias (s : Nat) (declare : Bool) : Parse Node := do
  expectWord "type"
  let n ← name
  let ts ← typeParams self
  expect "="
  let t ← self .type
  semicolon
  node (.typeAlias declare n) s [ts, t]

/-- An interface; `s` is where it begins. -/
def interface (s : Nat) : Parse Node := do
  expectWord "interface"
  let n ← name
  let ts ← typeParams self
  let h ← start
  let bs ←
    if ← eatWord "extends" then
      let bs ← bases self
      node .heritage h bs
    else pure Node.absent
  let b ← start
  let ms ← typeMembers self false
  let body ← node .interfaceBody b ms
  node (.interface n) s [ts, bs, body]

/-- Whether a member of an enumeration can have a name: it is a word or a string,
    or a string or a template in brackets. -/
def enumNameOk (computed : Bool) (key : Node) : Bool :=
  match key.kind with
  | .word _ => !computed
  | .string _ _ => true
  | .template texts => computed && texts.length = 1
  | _ => false

/-- A member of an enumeration. -/
def enumMember : Parse Node := do
  let s ← start
  let (key, computed) ← propertyKey self
  check (enumNameOk computed key)
  let key := match key with
    | .mk (.template texts) span _ => .mk (.templateType texts) span []
    | key => key
  let v ← if ← eat "=" then withIn (self .assignment) else pure Node.absent
  node (.enumMember computed) s [key, v]

/-- An enumeration; `s` is where it begins. -/
def enum (s : Nat) (mods : List Text) : Parse Node := do
  expectWord "enum"
  let n ← name
  expect "\x7b"
  node (.enum mods n) s (← commaUntil "\x7d" (enumMember self))

/-- The path of a namespace. -/
def namespacePath : Parse Node := do
  let s ← start
  let n ← name
  loop (← node (.word n) s []) fun left => do
    if ← eat "." then return .more (← node (.qualified (← word)) s [left])
    return .done left

/-- The statements of a namespace, in braces. -/
def moduleBlock : Parse Node := do
  let s ← start
  expect "\x7b"
  node .moduleBlock s (← statements self (eat "\x7d"))

/-- A namespace; `s` is where it begins. One that is named by a string may be
    declared without its statements. -/
def namespaceRule (s : Nat) (mods : List Text) : Parse Node := do
  let w ← word
  if w = "global" then node (.namespace_ mods w) s [Node.absent, ← moduleBlock self]
  else
    match ← token with
    | .string v h _ =>
      check (w = "module")
      let n ← start
      advance
      let path ← node (.string v h) n []
      if ← isPunct "\x7b" then node (.namespace_ mods w) s [path, ← moduleBlock self]
      else
        semicolon
        node (.namespace_ mods w) s [path, Node.absent]
    | _ =>
      let path ← namespacePath
      node (.namespace_ mods w) s [path, ← moduleBlock self]

end Unhook.Grammar
