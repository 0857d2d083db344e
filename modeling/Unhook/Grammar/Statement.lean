import Unhook.Grammar.Types

/-!
# Statements

The rules for statements, imports and exports among them.
-/

namespace Unhook.Grammar

open Parse

variable (self : Rules)

/-- A block, in braces. -/
def block : Parse Node := do
  let s ← start
  expect "\x7b"
  node .block s (← until_ "\x7d" (self .statement))

/-- Whether a statement can be the whole body of another: declarations that
    belong to a block cannot. -/
def isBody (n : Node) : Bool :=
  match n.kind with
  | .declaration .let _ | .declaration .const _ => false
  | .class form => !form.declaration
  | .function form => !(form.async || form.generator)
  | _ => true

/-- Whether the word `let` begins an expression before a lexeme. -/
def letIsName (next : Lexeme) : Bool :=
  match next.token with
  | .punct p =>
    p = "." || p = "(" || (assignOfSymbol? p).isSome ||
      ((BinaryOp.ofSymbol? p).isSome && !p.oneOf ["&&", "||", "??"])
  | .word m _ => m = "in" || m = "instanceof"
  | _ => false

/-- A statement that is the body of another. The word `let` declares nothing
    there. -/
def body : Parse Node := do
  let s ← start
  let next ← peek
  if (← isWord "let") && !letIsName next && next.token ≠ .punct "[" then
    let n ← name
    let e ← node (.identifier n) s []
    semicolon
    return ← node .expressionStatement s [e]
  let b ← self .statement
  check (isBody b)
  return b

/-- An expression in parentheses, as after `if`. -/
def condition : Parse Node := do
  expect "("
  let e ← withIn (self .expression)
  expect ")"
  return e

/-- One variable of a declaration. -/
def declarator : Parse Node := do
  let s ← start
  let p ← self .pattern
  let named := match p.kind with | .binding _ => true | _ => false
  let definite ← if (← typed) && named && !(← newline) then eat "!" else pure false
  let t ← typeNote self
  let v ← if ← eat "=" then self .assignment else pure Node.absent
  node (.declarator definite) s [p, t, v]

/-- Whether a variable that needs a value has one. -/
def initialized (constant : Bool) : Node → Bool
  | .mk (.declarator _) _ [p, _, v] =>
    !v.isAbsent || (!constant && match p.kind with | .binding _ => true | _ => false)
  | _ => false

/-- How the declaration at the cursor declares, and how many words say so. -/
def varKind? : Parse (Option (VarKind × Nat)) := do
  let next ← peek
  match ← token with
  | .word n true =>
    if n = "var" then return some (.var, 1)
    else if n = "const" then return some (.const, 1)
    else if n = "let" then return some (.let, 1)
    else if n = "using" then
      match next.token with
      | .word m _ =>
        return if isName (← read) m && !next.newline && m ≠ "of" then some (.using, 1) else none
      | _ => return none
    else if n = "await" && next.token = .word "using" true && !next.newline then
      let after := next.after
      match after.token with
      | .word m _ =>
        return if isName (← read) m && !after.newline then some (.awaitUsing, 2) else none
      | _ => return none
    else return none
  | _ => return none

/-- The variables of a declaration after the word that begins it. -/
def declarators : Parse (List Node) := separated "," (declarator self)

/-- A declaration of variables; `s` is where it begins. -/
def variableDeclaration (s : Nat) (kind : VarKind) (words : Nat) (declare : Bool) : Parse Node := do
  advance
  if 1 < words then advance
  let ds ← withIn (declarators self)
  check ((← read).ambient || ds.all (initialized (kind ≠ .var && kind ≠ .let)))
  semicolon
  node (.declaration kind declare) s ds

/-- The rest of a loop over the members of something. -/
def loopOver (s : Nat) (await : Bool) (left : Node) : Parse Node := do
  if ← eatWord "of" then
    let r ← withIn (self .assignment)
    expect ")"
    let b ← body self
    node (.forOf await) s [left, r, b]
  else
    check (!await)
    expectWord "in"
    let r ← withIn (self .expression)
    expect ")"
    let b ← body self
    node .forIn s [left, r, b]

/-- The rest of a loop with a counter. -/
def loopCounting (s : Nat) (init : Node) : Parse Node := do
  expect ";"
  let test ← if ← isPunct ";" then pure Node.absent else withIn (self .expression)
  expect ";"
  let update ← if ← isPunct ")" then pure Node.absent else withIn (self .expression)
  expect ")"
  let b ← body self
  node .forStatement s [init, test, update, b]

/-- A loop with `for`. -/
def forLoop : Parse Node := do
  let s ← start
  expectWord "for"
  let await ← if (← read).await then eatWord "await" else pure false
  expect "("
  if ← isPunct ";" then
    check (!await)
    return ← loopCounting self s Node.absent
  let i ← start
  let byLet ← isWord "let"
  let declares := !byLet || match (← peek).token with
    | .word m _ => m ≠ "in"
    | .punct p => p = "[" || p = "\x7b"
    | _ => false
  match (← varKind?).filter fun _ => declares with
  | some (kind, words) =>
    advance
    if 1 < words then advance
    let ds ← within ({ · with inAllowed := false, arrowResults := true }) (declarators self)
    let left ← node (.declaration kind false) i ds
    if ← isPunct ";" then
      check (!await && ds.all (initialized (kind ≠ .var && kind ≠ .let)))
      loopCounting self s left
    else
      check (!((kind = .using || kind = .awaitUsing) && (← isWord "in")))
      loopOver self s await left
  | none =>
    let plainAsync := (← isWord "async") && !await
    let e ← within ({ · with inAllowed := false, arrowResults := true }) (self .expression)
    if ← isPunct ";" then
      check (!await)
      loopCounting self s e
    else
      check (!((byLet || (plainAsync && e.kind = .identifier "async")) && (← isWord "of")))
      match assignTarget? (← get).trailing e with
      | some t => loopOver self s await t
      | none => fail

/-- One case of a switch. -/
def switchCase : Parse Node := do
  let s ← start
  let test ←
    if ← eatWord "default" then pure Node.absent
    else
      expectWord "case"
      withIn (self .expression)
  expect ":"
  let body ← loop [] fun items => do
    if (← isWord "case") || (← isWord "default") || (← isPunct "\x7d") then
      return .done items.reverse
    return .more ((← self .statement) :: items)
  node .case s (test :: body)

/-- What catches an exception. -/
def catchClause : Parse Node := do
  let s ← start
  expectWord "catch"
  let (p, t) ←
    if ← eat "(" then
      let p ← self .pattern
      let t ← typeNote self
      expect ")"
      pure (p, t)
    else pure (Node.absent, Node.absent)
  let b ← block self
  node .catchClause s [p, t, b]

/-- A statement that catches exceptions. -/
def tryStatement : Parse Node := do
  let s ← start
  expectWord "try"
  let b ← block self
  let c ← if ← isWord "catch" then catchClause self else pure Node.absent
  let f ← if ← eatWord "finally" then block self else pure Node.absent
  check (!(c.isAbsent && f.isAbsent))
  node .tryStatement s [b, c, f]

/-- A label after `break` or `continue`, if there is one. -/
def labelHere? : Parse (Option Text) := do
  if ← newline then return none
  match ← nameHere? with
  | some n =>
    advance
    return some n
  | none => return none

/-- A statement that begins with a given keyword, if it is one that begins
    statements only. -/
def keywordStatement? (n : Text) : Parse (Option Node) := do
  let s ← start
  if n = "if" then
    advance
    let test ← condition self
    let a ← body self
    let b ← if ← eatWord "else" then body self else pure Node.absent
    return some (← node .ifStatement s [test, a, b])
  else if n = "for" then return some (← forLoop self)
  else if n = "while" then
    advance
    let test ← condition self
    return some (← node .whileStatement s [test, ← body self])
  else if n = "do" then
    advance
    let b ← body self
    expectWord "while"
    let test ← condition self
    discard (eat ";")
    return some (← node .doWhile s [b, test])
  else if n = "switch" then
    advance
    let v ← condition self
    expect "\x7b"
    let cases ← until_ "\x7d" (switchCase self)
    return some (← node .switch s (v :: cases))
  else if n = "return" then
    check (← read).returnAllowed
    advance
    let atEnd := (← newline) || (← isPunct ";") || (← isPunct "\x7d") || (← token) = .eof
    let e ← if atEnd then pure Node.absent else withIn (self .expression)
    semicolon
    return some (← node .returnStatement s [e])
  else if n = "throw" then
    advance
    check (!(← newline))
    let e ← withIn (self .expression)
    semicolon
    return some (← node .throwStatement s [e])
  else if n = "break" then
    advance
    let l ← labelHere?
    semicolon
    return some (← node (.breakStatement l) s [])
  else if n = "continue" then
    advance
    let l ← labelHere?
    semicolon
    return some (← node (.continueStatement l) s [])
  else if n = "try" then return some (← tryStatement self)
  else if n = "debugger" then
    advance
    semicolon
    return some (← node .debugger s [])
  else if n = "with" then
    advance
    let o ← condition self
    return some (← node .withStatement s [o, ← body self])
  else return none

/-- Whether a word at the cursor begins a declaration: a name follows on the
    same line. -/
def beginsDeclaration : Parse Bool := do
  let next ← peek
  match next.token with
  | .word m _ => return isName (← read) m && !next.newline
  | _ => return false

/-- Whether a namespace stands at the cursor: a name or a string follows on the
    same line, or a brace after the global one. -/
def beginsNamespace (n : Text) : Parse Bool := do
  let next ← peek
  match next.token with
  | .string _ _ _ => return n = "module" && !next.newline
  | .punct p => return n = "global" && p = "\x7b"
  | _ => return n.oneOf ["namespace", "module"] && (← beginsDeclaration)

/-- A class that is declared, with the word before it and the decorators that have
    been read; `s` is where it begins. -/
def classDeclaration (s : Nat) (ds : Node) (declare : Bool) : Parse Node := do
  let abstract ← if ← typed then eatWord "abstract" else pure false
  classAt self s ds { declaration := true, abstract, declare }

/-- Whether a class is declared at the cursor. -/
def isClass : Parse Bool := do
  if ← isWord "class" then return true
  let next ← peek
  return (← typed) && (← isWord "abstract") && next.token = .word "class" true && !next.newline

/-- A declaration that only types are made of, if one stands at the cursor;
    `s` is where it begins. -/
def typeDeclaration? (s : Nat) (declare : Bool) : Parse (Option Node) := do
  if !(← typed) then return none
  let mods : List Text := if declare then ["declare"] else []
  match ← token with
  | .word n true =>
    if n = "type" && (← beginsDeclaration) then return some (← typeAlias self s declare)
    else if n = "interface" && (← beginsDeclaration) then return some (← interface self s)
    else if n = "enum" then return some (← enum self s mods)
    else if n = "const" && (← peek).token = .word "enum" true then
      advance
      return some (← enum self s (mods ++ [("const" : Text)]))
    else if ← beginsNamespace n then return some (← namespaceRule self s mods)
    else return none
  | _ => return none

/-- An import of a namespace by assignment, if one stands at the cursor; `s` is
    where it begins. -/
def importEquals? (s : Nat) : Parse (Option Node) := do
  if !((← typed) && (← peek).token = .punct "=") then return none
  let n ← name
  expect "="
  let r ← start
  let target ←
    if (← isWord "require") && (← peek).token = .punct "(" then
      advance
      advance
      let p ← start
      let (v, halves) ← string
      let str ← node (.string v halves) p []
      expect ")"
      node .externalModule r [str]
    else typeNameRule
  semicolon
  return some (← node (.importEquals n) s [target])

/-- An import by assignment, from its keyword on. -/
def importAssignment (s : Nat) : Parse Node := do
  expectWord "import"
  if (← isWord "type") && (← peek).token ≠ .punct "=" then advance
  match ← importEquals? s with
  | some i => return i
  | none => fail

/-- What stands after `declare`. -/
def declared (s : Nat) : Parse Node := within ({ · with ambient := true }) do
  if let some t ← typeDeclaration? self s true then return t
  if ← isClass then return ← classDeclaration self s Node.absent true
  if ← isWord "import" then return ← importAssignment s
  if let some (kind, words) ← varKind? then
    check (kind ≠ .using && kind ≠ .awaitUsing)
    return ← variableDeclaration self s kind words true
  let async ← isAsyncFunction
  if async then advance
  functionAt self s true false async true

/-- A declaration that a word begins, if one stands at the cursor. -/
def declaration? : Parse (Option Node) := do
  let s ← start
  if let some t ← typeDeclaration? self s false then return some t
  if let some (kind, words) ← varKind? then
    return some (← variableDeclaration self s kind words false)
  if (← isWord "function") || (← isAsyncFunction) then return some (← function self true false)
  if ← isClass then return some (← classDeclaration self s Node.absent false)
  if (← typed) && (← isWord "declare") then
    let next ← peek
    match next.token with
    | .word _ _ =>
      if next.newline then return none
      advance
      return some (← declared self s)
    | _ => return none
  return none

/-- A name in an import or an export list, in which no half of a character is
    spelled out. -/
def moduleName : Parse ModuleName := do
  match ← token with
  | .string v halves _ =>
    check (!halves)
    advance
    return .quoted v halves
  | _ => return .word (← word)

/-- Whether a name in a list can be read. -/
def isModuleName : Parse Bool := do
  match ← token with
  | .string _ _ _ | .word _ _ => return true
  | _ => return false

/-- The name after `as`, if there is one, where the name before is `a`. -/
def renamed (a : ModuleName) : Parse ModuleName := do
  if ← eatWord "as" then moduleName else return a

/-- An entry of a list after the word `type`, which is a name itself unless a name
    follows; the name may be `as`. -/
def typeEntry : Parse (ModuleName × ModuleName × Bool) := do
  let type : ModuleName := .word "type"
  let as : ModuleName := .word "as"
  if ← eatWord "as" then
    if ← eatWord "as" then
      if ← isModuleName then return (as, ← moduleName, true) else return (type, as, false)
    else if ← isModuleName then return (type, ← moduleName, false)
    else return (as, as, true)
  else if ← isModuleName then
    let a ← moduleName
    return (a, ← renamed a, true)
  else return (type, type, false)

/-- An entry of an import or an export list: the name on the left, the name
    after `as`, and whether it is a type. -/
def moduleEntry : Parse (ModuleName × ModuleName × Bool) := do
  if (← typed) && (← eatWord "type") then typeEntry
  else
    let a ← moduleName
    return (a, ← renamed a, false)

/-- The entries of a list, in braces. -/
def moduleEntries : Parse (List (ModuleName × ModuleName × Bool)) := do
  expect "\x7b"
  loop [] fun items => do
    if ← eat "\x7d" then return .done items.reverse
    let e ← moduleEntry
    if ← eat "," then return .more (e :: items)
    expect "\x7d"
    return .done (e :: items).reverse

/-- Whether a name can be the one on the side of this module. -/
def isLocal (ctx : Context) : ModuleName → Bool
  | .word n => isName ctx n
  | .quoted _ _ => false

/-- The attributes of an import, if there are any. No two have the same name. -/
def importAttributes : Parse (Option ImportAttributes) := do
  if !((← isWord "with") || ((← isWord "assert") && !(← newline))) then return none
  let w ← word
  expect "\x7b"
  let items ← loop [] fun items => do
    if ← eat "\x7d" then return .done items.reverse
    let k ← match ← token with
      | .string v halves _ =>
        advance
        pure (ModuleName.quoted v halves)
      | _ => pure (.word (← word))
    expect ":"
    let v ← string
    if ← eat "," then return .more ((k, v) :: items)
    expect "\x7d"
    return .done ((k, v) :: items).reverse
  check (distinct (items.map fun (k, _) => k.text))
  return some { word := w, items }

/-- Where names are taken from. -/
def moduleSource : Parse ModuleSource := do
  let (path, halves) ← string
  return { path, halves, attributes := ← importAttributes }

/-- The word that says when a module is loaded, if it stands at the cursor. -/
def importPhase? : Parse (Option Text) := do
  let next ← peek
  if (← isWord "defer") && next.token = .punct "*" then
    advance
    return some "defer"
  if ← isWord "source" then
    match next.token with
    | .word m _ =>
      if m ≠ "from" || next.after.token = .word "from" true then
        advance
        return some "source"
      else return none
    | _ => return none
  return none

/-- The names that an import brings in. -/
def importClause : Parse ImportClause := do
  let phase ← importPhase?
  let default ← match ← nameHere? with
    | some n =>
      advance
      pure (some n)
    | none => pure none
  if default.isSome && (phase.isSome || !(← eat ",")) then return { phase, default }
  if ← eat "*" then
    expectWord "as"
    return { phase, default, namespace_ := some (← name) }
  let entries ← moduleEntries
  let ctx ← read
  check (entries.all fun (_, b, _) => isLocal ctx b)
  return { phase, default, entries := some (entries.map fun (a, b, t) => ⟨t, b, a⟩) }

/-- Whether some entry of an import is marked as a type. -/
def marksEntry (c : ImportClause) : Bool :=
  c.entries.any fun es => es.any (·.typeOnly)

/-- Whether the word `type` after `import` marks all of it. -/
def marksAll : Parse Bool := do
  if (← typed) && (← isWord "type") then
    let next ← peek
    match next.token with
    | .word m _ =>
      let after := next.after.token
      return m ≠ "from" || after = .word "from" true || after = .punct "="
    | .punct p => return p = "\x7b" || p = "*"
    | _ => return false
  return false

/-- An import. -/
def importItem : Parse Node := do
  let s ← start
  expectWord "import"
  let typeOnly ← marksAll
  if typeOnly then advance
  if let some i ← importEquals? s then return i
  let clause ← match ← token with
    | .string _ _ _ => pure none
    | _ =>
      let c ← importClause
      expectWord "from"
      pure (some c)
  check (!(typeOnly && clause.any marksEntry))
  let source ← moduleSource
  semicolon
  node (.importDeclaration typeOnly clause source) s []

/-- A default export after its keywords; `ds` are the decorators that have been
    read. -/
def exportDefault (s : Nat) (ds : Node) : Parse Node := do
  let d ← start
  if (← isClass) || !ds.isAbsent then
    return ← node .exportDefault s [← classDeclaration self d ds false]
  if (← isWord "function") || (← isAsyncFunction) then
    return ← node .exportDefault s [← function self true true]
  if (← typed) && (← isWord "interface") && (← beginsDeclaration) then
    return ← node .exportDefault s [← interface self d]
  let e ← withIn (self .assignment)
  semicolon
  node .exportDefault s [e]

/-- The decorators at the cursor, or those that have been read before; there are
    none in both places. -/
def moreDecorators (ds : Node) : Parse Node := do
  let more ← decorators self
  check (ds.isAbsent || more.isAbsent)
  return if ds.isAbsent then more else ds

/-- A declaration that is exported; `ds` are the decorators that have been
    read. Resources are not exported. -/
def exportedDeclaration (s : Nat) (ds : Node) : Parse Node := do
  let d ← start
  let ds ← moreDecorators self ds
  if !ds.isAbsent then
    return ← node .exportDeclaration s [← classDeclaration self d ds false]
  if (← typed) && (← isWord "import") then
    return ← node .exportDeclaration s [← importAssignment d]
  match ← declaration? self with
  | some (.mk (.declaration kind declare) span ps) =>
    check (kind ≠ .using && kind ≠ .awaitUsing)
    node .exportDeclaration s [.mk (.declaration kind declare) span ps]
  | some d => node .exportDeclaration s [d]
  | none => fail

/-- Names that are exported, all as types or each by itself; `s` is where the
    export begins. -/
def exportNames (s : Nat) (typeOnly : Bool) : Parse Node := do
  if ← eat "*" then
    let n ← if ← eatWord "as" then pure (some (← moduleName)) else pure none
    expectWord "from"
    let source ← moduleSource
    semicolon
    node (.exportAll typeOnly n source) s []
  else
    let entries ← moduleEntries
    check (!(typeOnly && entries.any fun (_, _, t) => t))
    let source ← if ← eatWord "from" then pure (some (← moduleSource)) else pure none
    let ctx ← read
    check (source.isSome || entries.all fun (a, _, _) => isLocal ctx a)
    semicolon
    node (.exportList typeOnly (entries.map fun (a, b, t) => ⟨t, a, b⟩) source) s []

/-- Whether names that are exported are listed from a lexeme on. -/
def listsNames (l : Lexeme) : Bool := l.token = .punct "*" || l.token = .punct "\x7b"

/-- An export; `s` is where it begins, and `ds` are the decorators that have been
    read. -/
def exportItem (s : Nat) (ds : Node) : Parse Node := do
  expectWord "export"
  if ← eatWord "default" then return ← exportDefault self s (← moreDecorators self ds)
  if !ds.isAbsent then return ← exportedDeclaration self s ds
  if (← typed) && (← eat "=") then
    let e ← withIn (self .expression)
    semicolon
    return ← node .exportAssignment s [e]
  if (← typed) && (← isWord "as") && (← peek).token = .word "namespace" true then
    advance
    advance
    let n ← name
    semicolon
    return ← node (.exportNamespace n) s []
  if listsNames (← get).toLexeme then return ← exportNames s false
  if (← typed) && (← isWord "type") && listsNames (← peek) then
    advance
    return ← exportNames s true
  exportedDeclaration self s ds

/-- What stands after decorators: a class, which may be exported. -/
def decorated : Parse Node := do
  let s ← start
  let ds ← decorators self
  if ← isWord "export" then exportItem self s ds
  else if (← typed) && (← isWord "declare") && !(← peek).newline then
    advance
    within ({ · with ambient := true }) (classDeclaration self s ds true)
  else classDeclaration self s ds false

/-- An expression as a statement, or a statement with the label that its first
    name is. -/
def expressionStatement : Parse Node := do
  let s ← start
  let e ← withIn (self .expression)
  if let .identifier n := e.kind then
    if ← eat ":" then return ← node (.labeled n) s [← body self]
  semicolon
  node .expressionStatement s [e]

/-- A statement that begins with `let`: a declaration, or an expression in which
    that is a name. -/
def letStatement : Parse Node := do
  let s ← start
  let next ← peek
  if letIsName next || next.token = .punct ";" then
    let e ← withIn (self .expression)
    semicolon
    node .expressionStatement s [e]
  else variableDeclaration self s .let 1 false

/-- Takes note that calls of the function that a statement declares have no
    effects. -/
def markDeclared : Node → Node
  | .mk .exportDeclaration s [d] => .mk .exportDeclaration s [markDeclared d]
  | .mk .exportDefault s [d] => .mk .exportDefault s [markInert d]
  | .mk (.declaration .const declare) s (.mk (.declarator d) t [p, n, v] :: ds) =>
    .mk (.declaration .const declare) s (.mk (.declarator d) t [p, n, markInert v] :: ds)
  | n => markInert n

/-- A statement, without the note before it. -/
def plainStatement : Parse Node := do
  let s ← start
  match ← token with
  | .punct p =>
    if p = "\x7b" then return ← block self
    if p = ";" then
      advance
      return ← node .empty s []
    if p = "@" then return ← decorated self
  | .word n true =>
    if n = "let" then return ← letStatement self
    if n = "export" then return ← exportItem self s Node.absent
    if n = "import" then
      let next ← peek
      if next.token ≠ .punct "(" && next.token ≠ .punct "." then return ← importItem
    if let some d ← declaration? self then return d
    if let some k ← keywordStatement? self n then return k
  | _ => pure ()
  expressionStatement self

/-- A statement. -/
def statementRule : Parse Node := do
  let inert := (← get).notes.inert
  let n ← plainStatement self
  return if inert then markDeclared n else n

end Unhook.Grammar
