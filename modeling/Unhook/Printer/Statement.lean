import Unhook.Printer.Expression

/-!
# How statements are written

A statement is written with the line feed that ends it, and without the blanks
that its line begins with: those belong to where it stands. The body of a loop
or a conditional that is no block stays on the line it begins on.
-/

namespace Unhook.Printer

/-- A block, without the end of its line. -/
def blockText (q : Piece) (p : Place) : Text := braces (q.parts.map line) p

/-- The body of a statement, after what it belongs to. -/
def body (q : Piece) (p : Place) : Text :=
  match q.kind with
  | .block => " " ++ blockText q p ++ "\n"
  | .empty => ";\n"
  | _ => " " ++ q.text p.later

/-- Whether an `else` after a statement would belong to that statement. -/
def capturesElse : Node → Bool
  | .mk .ifStatement _ [_, _, b] => b.isAbsent || capturesElse b
  | .mk .forStatement _ [_, _, _, b] | .mk .forIn _ [_, _, b] | .mk (.forOf _) _ [_, _, b]
  | .mk .whileStatement _ [_, b] | .mk .withStatement _ [_, b] | .mk (.labeled _) _ [b] =>
    capturesElse b
  | _ => false

/-- A conditional statement. -/
def ifStatement (t a b : Piece) (p : Place) : Text :=
  let more := !b.isAbsent
  let consequent : Text := match a.kind with
    | .block => " " ++ blockText a p ++ (if more then " " else "\n")
    | _ =>
      if capturesElse a.node then " " ++ braces [line a] p ++ (if more then " " else "\n")
      else body a p ++ given more (tabs p.indent)
  let alternative : Text := match b.kind with
    | .absent => []
    | .ifStatement => "else " ++ b.text p.later
    | _ => "else" ++ body b p
  "if (" ++ t.text p.fresh ++ ")" ++ consequent ++ alternative

/-- A declaration of variables, without its end. -/
def variablesText (kind : VarKind) (declare : Bool) (ds : List Piece) (p : Place) : Text :=
  given declare "declare " ++ kind.word ++ " " ++ commas ds p

/-- What stands before the first semicolon of a loop. -/
def loopStart (q : Piece) (p : Place) : Text :=
  match q.kind with
  | .declaration kind declare => variablesText kind declare q.parts p
  | _ => q.text p

/-- What a loop assigns to. A variable called `async` would begin an arrow. -/
def loopTarget (q : Piece) (p : Place) : Text :=
  match q.kind with
  | .declaration kind declare => variablesText kind declare q.parts p
  | k => wrap (k = .target "async") (p.fresh Level.comma) q.text

/-- A loop that tests after its body. -/
def doWhile (b t : Piece) (p : Place) : Text :=
  let start : Text := match b.kind with
    | .block => "do " ++ blockText b p ++ " "
    | .empty => "do" ++ tabs p.indent ++ ";\n"
    | _ => "do\n" ++ line b p.deeper ++ tabs p.indent
  start ++ "while (" ++ t.text p.fresh ++ ");\n"

/-- A case of a switch. -/
def case (t : Piece) (qs : List Piece) (p : Place) : Text :=
  let label : Text := if t.isAbsent then "default:" else "case " ++ t.text p.fresh ++ ":"
  label ++ match qs with
    | [q] => body q p
    | qs => "\n" ++ (qs.map fun q => line q p.deeper).flatten

/-- The quote of a directive: a single one, unless the text holds one first. -/
def directiveQuote : (escaped : Bool) → Text → Text
  | _, [] => "'"
  | true, _ :: t => directiveQuote false t
  | false, c :: t =>
    if c = '\'' then "\""
    else if c = '"' then "'"
    else directiveQuote (c = '\\') t

/-- A member of a class on lines of its own. -/
def memberLine (q : Piece) (p : Place) : Text :=
  line q p ++ (match q.kind with | .indexSignature _ _ => ";\n" | _ => "")

/-- The words before a method of a class, in order. -/
def methodWords : List Text := ["public", "private", "protected", "abstract", "static"]

/-- The words before a field of a class, in order. -/
def fieldWords : List Text :=
  ["declare", "public", "private", "protected", "abstract", "static", "readonly"]

/-- The words before a field with accessors, in order. -/
def accessorWords : List Text :=
  ["abstract", "public", "private", "protected", "static", "override", "accessor"]

/-- A field of a class. -/
def field (form : MemberForm) (ds k t v : Piece) (p : Place) : Text :=
  let accessor := form.modifiers.contains "accessor"
  ds.text p ++ ordered (if accessor then accessorWords else fieldWords) form.modifiers
    ++ key form.computed k p ++ given form.optional "?"
    ++ given (accessor && form.definite) "!" ++ t.ifPresent ": " p.later
    ++ v.ifPresent " = " (p.fresh Level.comma) ++ ";\n"

/-- A directive. -/
def directive (raw : Text) : Text :=
  let q := directiveQuote false raw
  q ++ raw ++ q ++ ";\n"

/-- Whether a statement is a string, which would be read as a directive. -/
def isStringStatement : Node → Bool
  | .mk .expressionStatement _ [.mk (.string _ _) _ _] => true
  | _ => false

/-- The lines of a body. A string that comes first and is no directive is put in
    parentheses, and at the beginning of its line. -/
def bodyLines : List Piece → List (Place → Text)
  | [] => []
  | q :: qs =>
    let first : Place → Text :=
      match isStringStatement q.node, q.parts with
      | true, e :: _ => fun p => "(" ++ e.text p.later ++ ");\n"
      | _, _ => line q
    first :: qs.map line

/-- A name in an import or an export list. -/
def moduleName : ModuleName → Text
  | .word n => n
  | .quoted v halves => Quoted.single v halves

/-- An entry of a list: two names, or one if they are the same. -/
def moduleEntry (typeOnly : Bool) (a b : ModuleName) : Text :=
  given typeOnly "type " ++ moduleName a ++ given (a.text ≠ b.text) (" as " ++ moduleName b)

/-- The entries of a list, in braces. -/
def entryList (entries : List Text) : Text :=
  if entries.isEmpty then "\x7b\x7d" else "\x7b " ++ Text.join ", " entries ++ " \x7d"

/-- The attributes of an import. -/
def attributes : Option ImportAttributes → Text
  | none => []
  | some as => " " ++ as.word ++ " " ++ entryList (as.items.map fun (k, v, halves) =>
      moduleName k ++ ": " ++ Quoted.single v halves)

/-- Where names are taken from. -/
def modulePath (s : ModuleSource) : Text := Quoted.single s.path s.halves

/-- Where names are taken from, with attributes. -/
def moduleSource (s : ModuleSource) : Text := modulePath s ++ attributes s.attributes

/-- The names that an import brings in; braces with nothing in them are left
    out. -/
def importClause (c : ImportClause) : Text :=
  let namespaces := c.namespace_.toList.map fun n => ("* as " : Text) ++ n
  let lists := (c.entries.filter (!·.isEmpty)).toList.map fun es =>
    entryList (es.map fun e => moduleEntry e.typeOnly e.outer e.inner)
  Text.join ", " (c.default.toList ++ namespaces ++ lists)

/-- Whether an import has braces with nothing in them, and nothing else. -/
def isHollow (c : ImportClause) : Bool :=
  c.default.isNone && c.namespace_.isNone && c.entries = some []

/-- An import. One with empty braces is written with double quotes. -/
def importDeclaration (typeOnly : Bool) (clause : Option ImportClause) (source : ModuleSource) :
    Text :=
  "import" ++ given typeOnly " type" ++
    (match clause with
      | none => " " ++ moduleSource source
      | some c =>
        given c.phase.isSome (" " ++ c.phase.getD []) ++
        if isHollow c then
          " \x7b\x7d from \"" ++ source.path ++ "\"" ++ attributes source.attributes
        else " " ++ importClause c ++ " from " ++ moduleSource source) ++ ";\n"

/-- A declaration that is exported, with the words before it. The note about a
    function comes first. -/
def exported (words : Text) (d : Piece) (p : Place) : Text :=
  let inert := match d.kind with
    | .function form => form.declaration && form.inert
    | _ => false
  given inert (inertNote ++ "\n" ++ tabs p.indent) ++ words
    ++ d.text { p.later with opening := .exported }

/-- A default export. -/
def exportDefault (q : Piece) (p : Place) : Text :=
  let declaration := match q.kind with
    | .function form => form.declaration
    | .class form => form.declaration
    | .interface _ => true
    | _ => false
  if declaration then exported "export default " q p
  else
    "export default " ++ q.text { (p.fresh Level.comma) with opening := .defaultExport } ++ ";\n"

/-- How a statement or a part of one is written. -/
def statement : Kind → List Piece → Place → Text
  | .expressionStatement, [e], p => e.text { p.fresh with opening := .statement } ++ ";\n"
  | .block, qs, p => braces (qs.map line) p ++ "\n"
  | .empty, _, _ => ";\n"
  | .declaration kind declare, ds, p => variablesText kind declare ds p.later ++ ";\n"
  | .declarator definite, [pat, t, v], p =>
    pat.text p.later ++ given definite "!" ++ t.ifPresent ": " p.later
      ++ v.ifPresent " = " (p.later Level.comma)
  | .ifStatement, [t, a, b], p => ifStatement t a b p
  | .forStatement, [i, t, u, b], p =>
    "for (" ++ loopStart i { p.fresh with noIn := true } ++ ";" ++ t.ifPresent " " p.fresh ++ ";"
      ++ u.ifPresent " " p.fresh ++ ")" ++ body b p
  | .forIn, [l, r, b], p =>
    "for (" ++ loopTarget l p.fresh ++ " in " ++ r.text p.fresh ++ ")"
      ++ body b p
  | .forOf await, [l, r, b], p =>
    "for " ++ given await "await " ++ "(" ++ loopTarget l p.later ++ " of "
      ++ r.text (p.later Level.comma) ++ ")" ++ body b p
  | .whileStatement, [t, b], p => "while (" ++ t.text p.fresh ++ ")" ++ body b p
  | .doWhile, [b, t], p => doWhile b t p
  | .switch, v :: cases, p =>
    "switch (" ++ v.text p.fresh ++ ") " ++ braces (cases.map line) p ++ "\n"
  | .case, t :: qs, p => case t qs p
  | .returnStatement, [e], p => "return" ++ e.ifPresent " " p.fresh ++ ";\n"
  | .throwStatement, [e], p => "throw " ++ e.text p.fresh ++ ";\n"
  | .breakStatement l, _, _ => "break" ++ given l.isSome (" " ++ l.getD []) ++ ";\n"
  | .continueStatement l, _, _ => "continue" ++ given l.isSome (" " ++ l.getD []) ++ ";\n"
  | .tryStatement, [b, c, f], p =>
    "try " ++ blockText b p ++ c.ifPresent " " p.later
      ++ given (!f.isAbsent) (" finally " ++ blockText f p) ++ "\n"
  | .catchClause, [pat, _, b], p =>
    "catch" ++ given (!pat.isAbsent) (" (" ++ pat.text p.later ++ ")") ++ " " ++ blockText b p
  | .labeled l, [b], p => l ++ ":" ++ body b p
  | .debugger, _, _ => "debugger;\n"
  | .withStatement, [o, b], p => "with(" ++ o.text p.fresh ++ ")" ++ body b p
  | .directive raw, _, _ => directive raw
  | .functionBody, qs, p => braces (bodyLines qs) p
  | .classBody, qs, p => braces (qs.map memberLine) p
  | .method form, [ds, k, f], p =>
    ds.text p ++ ordered methodWords form.modifiers
      ++ method form.role (key form.computed k p ++ given form.optional "?") f p ++ "\n"
  | .field form, [ds, k, t, v], p => field form ds k t v p
  | .staticBlock, qs, p => "static " ++ braces (qs.map line) p ++ "\n"
  | .importDeclaration typeOnly clause source, _, _ => importDeclaration typeOnly clause source
  | .exportDeclaration, [d], p => exported "export " d p
  | .exportList typeOnly entries source, _, _ =>
    "export " ++ given typeOnly "type " ++
      entryList (entries.map fun e => moduleEntry e.typeOnly e.inner e.outer) ++
      given source.isSome (" from " ++ (source.map modulePath).getD []) ++ ";\n"
  | .exportAll typeOnly n source, _, _ =>
    "export " ++ given typeOnly "type " ++ "*" ++
      given n.isSome (" as " ++ (n.map moduleName).getD []) ++ " from "
      ++ moduleSource source ++ ";\n"
  | .exportDefault, [q], p => exportDefault q p
  | _, _, _ => []

end Unhook.Printer
