import Unhook.Printer.Place

/-!
# How expressions are written

The rules for expressions and patterns. Operators with two operands have blanks
around them, an array of three elements or more and an object of two properties
or more take a line for each, and parentheses are written only where they are
needed.
-/

namespace Unhook.Printer

/-- Whether a brace at a place would begin a block. -/
def braceIsBlock (p : Place) : Bool := p.opening = .statement || p.opening = .arrowBody

/-- Whether a function or a class at a place would be a declaration. -/
def wordIsDeclaration (p : Place) : Bool := p.opening = .statement || p.opening = .defaultExport

/-- The key of a property. -/
def key (computed : Bool) (k : Piece) (p : Place) : Text :=
  if computed then "[" ++ k.text (p.fresh Level.comma) ++ "]" else k.text p.fresh

/-- Items in brackets of which each takes a line. -/
def itemLines (items : List (Place → Text)) (p : Place) : Text :=
  "\n" ++ Text.join ",\n" (items.map fun i => tabs (p.indent + 1) ++ i p.deeper) ++ "\n"
    ++ tabs p.indent

/-- An array. An element that is left out at the end needs a comma of its own. -/
def array (qs : List Piece) (p : Place) : Text :=
  let items := qs.map fun q => fun (p : Place) => q.text (p.fresh Level.comma)
  let last : Text := if qs.getLast?.any (·.kind = .elision) then "," else ""
  if 2 < qs.length then
    -- The comma after a last element that is left out stands before the line ends.
    let withLast := match items.reverse with
      | [] => []
      | i :: is => (is.reverse ++ [fun p => i p ++ last])
    "[" ++ itemLines withLast p ++ "]"
  else "[" ++ Text.join ", " (items.map fun i => i p) ++ last ++ "]"

/-- An object. -/
def object (qs : List Piece) (p : Place) : Text :=
  wrap (braceIsBlock p) p fun p =>
    match qs with
    | [] => "\x7b\x7d"
    | [q] => "\x7b " ++ q.text p.later ++ " \x7d"
    | qs => "\x7b" ++ itemLines (qs.map fun q => fun p => q.text p.later) p ++ "\x7d"

/-- The name that a key is, if it is a word. -/
def keyWord? (k : Piece) : Option Text :=
  match k.kind with
  | .word n => some n
  | _ => none

/-- The name that a value is, if it is a reference. -/
def valueName? (v : Node) : Option Text :=
  match v.kind with
  | .identifier n => some n
  | _ => none

/-- The name that a pattern introduces, with or without a default. -/
def patternName? : Node → Option Text
  | .mk (.binding n) _ _ => some n
  | .mk .defaultPattern _ [.mk (.binding n) _ _, _] => some n
  | _ => none

/-- Words with a blank after each. -/
def words (ws : List Text) : Text := ws.flatMap (· ++ " ")

/-- The words before a method. -/
def roleWord : Role → Text
  | .getter => "get "
  | .setter => "set "
  | _ => []

/-- The parts of a function after its parameters. -/
def functionEnd (r body : Piece) (p : Place) : Text :=
  r.ifPresent ": " p.later ++ (if body.isAbsent then (";" : Text) else " " ++ body.text p.later)

/-- The words before the name of a method, and the name. -/
def methodHead (role : Role) (form : FunctionForm) (k : Text) : Text :=
  roleWord role ++ given form.async "async " ++ given form.generator "*" ++ k

/-- A method of a class: its key, and the function that it is, without its
    head. -/
def method (role : Role) (k : Text) (f : Piece) (p : Place) : Text :=
  match f.kind, f.parts with
  | .function form, [_, ts, ps, r, body] =>
    methodHead role form k ++ ts.text p.later ++ "(" ++ ps.text p.later ++ ")"
      ++ functionEnd r body p
  | _, _ => []

/-- A method of an object. The declared type of `this` is left out. -/
def objectMethod (role : Role) (k : Text) (f : Piece) (p : Place) : Text :=
  match f.kind, f.parts with
  | .function form, [_, ts, ps, r, body] =>
    methodHead role form k ++ ts.text p.later
      ++ "(" ++ commas (ps.parts.filter (·.kind ≠ .thisParam)) p.later ++ ")"
      ++ r.ifPresent ": " p.later ++ body.ifPresent " " p.later
  | _, _ => []

/-- A property of an object. The value of a shorthand is written once, and a key
    that is written as a name but is a number is computed. -/
def property (form : PropertyForm) (k v : Piece) (p : Place) : Text :=
  if form.role ≠ .value then objectMethod form.role (key form.computed k p) v p
  else
    let same := match keyWord? k with
      | some n => if n = "__proto__" then form.shorthand else valueName? v.node = some n
      | none => false
    given (!same) (key (form.computed || k.kind = .number .infinity) k p ++ ": ")
      ++ v.text (p.fresh Level.comma)

/-- A property of a binding pattern. -/
def patternProperty (computed : Bool) (k v : Piece) (p : Place) : Text :=
  let same := (keyWord? k).isSome && patternName? v.node = keyWord? k
  given (!same) (key computed k p ++ ": ") ++ v.text p.later

/-- The elements of an array pattern or target. -/
def arrayElements (qs : List Piece) (p : Place) : Text :=
  let last : Text := if qs.getLast?.any (·.kind = .elision) then "," else ""
  commas qs (p.later Level.comma) ++ last

/-- An array pattern. A rest that stands alone has a blank before it. -/
def arrayPattern (qs : List Piece) (p : Place) : Text :=
  let before : Text := match qs with
    | [q] => given (q.kind = .rest) " "
    | _ => []
  "[" ++ before ++ arrayElements qs p ++ "]"

/-- What is written before a function whose calls have no effects. -/
def inertNote : Text := "/* @__NO_SIDE_EFFECTS__ */"

/-- A function, as an expression or a declaration. The note about a declaration
    takes a line of its own, which stands before `export`. -/
def function (form : FunctionForm) (id ts ps r body : Piece) (p : Place) : Text :=
  let note : Text :=
    if !form.inert then []
    else if !form.declaration then inertNote ++ " "
    else given (p.opening ≠ .exported) (inertNote ++ "\n" ++ tabs p.indent)
  let begins := !form.inert && wordIsDeclaration p
  note ++ wrap (!form.declaration && (begins || form.parens)) p.callable fun p =>
    given form.declare "declare " ++ given form.async "async "
      ++ "function" ++ given form.generator "* "
      ++ (if form.generator then id.text p.later else id.ifPresent " " p.later)
      ++ ts.text p.later ++ "(" ++ ps.text p.later ++ ")" ++ functionEnd r body p

/-- An arrow. -/
def arrow (form : ArrowForm) (ts ps r body : Piece) (p : Place) : Text :=
  wrap (Level.assign ≤ p.level || form.parens) p fun p =>
    given form.inert (inertNote ++ " ") ++ given form.async "async " ++ ts.text p.later
      ++ "(" ++ ps.text p.later ++ ")" ++ r.ifPresent ": " p.later ++ " => " ++
      match body.kind with
      | .functionBody => body.text p.later
      | _ => body.text { (p.later Level.comma) with opening := .arrowBody }

/-- Whether a decorator needs no parentheses: it is a name, a member or a call of
    such. -/
def isPlainDecorator : Node → Bool
  | .mk (.identifier _) _ _ => true
  | .mk (.member l _) _ _ | .mk (.privateMember l _) _ _ => !l.ends
  | .mk (.call l _) _ (f :: _) => !l.ends && isPlainDecorator f
  | _ => false

/-- Decorators, with a blank after each. -/
def decorators (qs : List Piece) (p : Place) : Text :=
  qs.flatMap fun q => "@" ++ wrap (!isPlainDecorator q.node) p.fresh q.text ++ " "

/-- A class, as an expression or a declaration. One without a name has no type
    parameters. -/
def class_ (form : ClassForm) (ds id ts base args ifaces body : Piece) (p : Place) : Text :=
  wrap (!form.declaration && wordIsDeclaration p) p.callable fun p =>
    ds.text p ++ given form.declare "declare " ++ given form.abstract "abstract "
      ++ "class" ++ given (!id.isAbsent) (" " ++ id.text p.later ++ ts.text p.later)
      ++ base.ifPresent " extends " (p.fresh Level.update) ++ args.text p.later
      ++ ifaces.ifPresent " implements " p.later ++ " " ++ body.text p.later

/-- Whether what is written begins with the operand of a `++` or a `--` that is
    written after it. -/
def beginsUpdate (increment : Bool) : Node → Bool
  | .mk (.update i false) _ _ => i = increment
  | .mk (.nonNull _) _ [e] | .mk .instantiation _ [e, _] => beginsUpdate increment e
  | _ => false

/-- An operator before an operand. A blank keeps two equal signs apart, also if
    the second one comes after its operand. -/
def unary (op : UnaryOp) (e : Piece) (p : Place) : Text :=
  wrap (Level.unary ≤ p.level) p fun p =>
    let operand := e.text (p.later Level.power)
    let doubled := op.symbol = operand.take 1 ||
      (op = .minus && beginsUpdate false e.node) || (op = .plus && beginsUpdate true e.node)
    if op = .delete && e.kind = .number .infinity then "delete (0, " ++ operand ++ ")"
    else if op.isWord || ((op = .minus || op = .plus) && doubled) then op.symbol ++ " " ++ operand
    else op.symbol ++ operand

/-- An operand with `++` or `--`. -/
def update (increment before : Bool) (e : Piece) (p : Place) : Text :=
  let sign : Text := if increment then "++" else "--"
  if before then
    wrap (Level.unary ≤ p.level) p fun p => sign ++ e.text (p.later Level.unary)
  else wrap (Level.update ≤ p.level) p fun p => e.text (p.first Level.update) ++ sign

/-- The levels of the places of two operands. -/
def operandLevels (op : BinaryOp) (l r : Node) : Nat × Nat :=
  let lower := op.level - 1
  let isLogical (n : Node) : Bool := match n.kind with
    | .binary .and | .binary .or => true
    | _ => false
  match op with
  | .pow =>
    let left := match l.kind with
      | .unary _ => Level.call
      | _ => op.level
    (left, lower)
  | .coalesce =>
    (if isLogical l then Level.unary else lower,
      if isLogical r then Level.unary
      else if r.kind = .binary .coalesce then lower else op.level)
  | .and | .or => (lower, if r.kind = .binary op then lower else op.level)
  | _ => (lower, op.level)

/-- The question whether an object has a private member. -/
def privateIn (l r : Piece) (p : Place) : Text :=
  wrap (Level.compare ≤ p.level) p fun p =>
    l.text p.later ++ " in " ++ r.text { (p.fresh Level.equality) with noIn := true }

/-- Whether an expression asks for a private member. -/
def isPrivateIn : Node → Bool
  | .mk (.binary _) _ (.mk (.privateName _) _ _ :: _) => true
  | _ => false

/-- Two operands with an operator between them. Inside parentheses of their own
    `in` is not mistaken any more. The question for a private member on the left
    has no parentheses. -/
def binary (op : BinaryOp) (l r : Piece) (p : Place) : Text :=
  let needed := op.level ≤ p.level || (op = .in && p.noIn)
  wrap needed { p with noIn := p.noIn && !needed } fun p =>
    let (a, b) := operandLevels op l.node r.node
    l.text (if isPrivateIn l.node then p.fresh else p.first a) ++ " " ++ op.symbol ++ " "
      ++ r.text (p.later b)

/-- An assignment. An object pattern at the beginning would be a block. What is
    assigned to is never mistaken for part of a loop or of `new`. -/
def assign (op : Option BinaryOp) (t e : Piece) (p : Place) : Text :=
  wrap (Level.assign ≤ p.level || (braceIsBlock p && t.kind = .objectTarget)) p fun p =>
    t.text (p.leading Level.comma) ++ " " ++ assignSymbol op ++ " " ++ e.text (p.later Level.comma)

/-- A conditional. -/
def conditional (t a b : Piece) (p : Place) : Text :=
  wrap (Level.conditional ≤ p.level) p.callable fun p =>
    t.text (p.first Level.conditional) ++ " ? " ++ a.text (p.fresh Level.yield) ++ " : "
      ++ b.text (p.later Level.yield)

/-- Expressions with commas between them. -/
def sequence (qs : List Piece) (p : Place) : Text :=
  wrap (Level.comma ≤ p.level) p.callable fun p =>
    match qs with
    | [] => []
    | q :: qs => Text.join ", " (q.text p.first :: qs.map (·.text p.later))

/-- The arguments of a call. -/
def arguments (qs : List Piece) (p : Place) : Text := "(" ++ commas qs (p.fresh Level.comma) ++ ")"

/-- What is written before a call without effects. -/
def pureNote : Text := "/* @__PURE__ */ "

/-- What a call begins that has parentheses around it or a note before it: a
    statement all the same, but no body of an arrow. -/
def Opening.kept : Opening → Opening
  | .arrowBody => .nothing
  | o => o

/-- A call. -/
def call (link : Link) (pure : Bool) (f ts : Piece) (args : List Piece) (p : Place) : Text :=
  wrap (link.ends && Level.update ≤ p.level) p fun p =>
    let needed := Level.new ≤ p.level || p.noCall || (pure && Level.update ≤ p.level)
    wrap needed p fun q =>
      let opening := if needed || pure then p.opening.kept else p.opening
      given pure pureNote ++ f.text { (q.fresh Level.update) with opening }
        ++ given link.optional "?." ++ ts.text q.later ++ arguments args q

/-- An object with `new`. -/
def new (pure : Bool) (f ts : Piece) (args : List Piece) (p : Place) : Text :=
  wrap (Level.new ≤ p.level || (pure && Level.update ≤ p.level)) p fun p =>
    given pure pureNote ++ "new " ++ f.text { (p.fresh Level.new) with noCall := true }
      ++ ts.text p.later ++ arguments args p

/-- The place of the object of a member. -/
def objectPlace (p : Place) : Place := { (p.first Level.update) with noIn := false }

/-- Whether a text is a whole number of digits alone, which a point would be
    taken as part of. -/
def isWhole (k : Kind) (t : Text) : Bool :=
  match k with
  | .number _ => t.all Text.isDigit
  | _ => false

/-- A member. A blank keeps its point from being read as that of a number. -/
def member (link : Link) (name : Text) (o : Piece) (p : Place) : Text :=
  wrap (link.ends && Level.update ≤ p.level) p fun p =>
    let object := o.text (objectPlace p)
    object ++ (if link.optional then "?." else if isWhole o.kind object then " ." else ".") ++ name

/-- A private member. -/
def privateMember (link : Link) (name : Text) (o : Piece) (p : Place) : Text :=
  wrap (link.ends && Level.update ≤ p.level) p fun p =>
    o.text (objectPlace p) ++ (if link.optional then "?.#" else ".#") ++ name

/-- A member with an index. Parentheses keep a variable called `let` from being
    read as the beginning of a declaration. -/
def index (link : Link) (o i : Piece) (p : Place) : Text :=
  wrap (link.ends && Level.update ≤ p.level) p fun p =>
    wrap (o.kind = .identifier "let") (objectPlace p) o.text
      ++ given link.optional "?." ++ "[" ++ i.text p.fresh ++ "]"

/-- A template: texts, each written by `text`, and parts in turn. -/
def template (text : Text → Text) : List Text → List Piece → Place → Text
  | t :: ts, q :: qs, p =>
    text t ++ "$\x7b" ++ q.text p.fresh ++ "\x7d" ++ template text ts qs p
  | ts, _, _ => ts.flatMap text

/-- Those of some words that stand in a list, in its order. -/
def ordered (order : List Text) (ws : List Text) : Text := words (order.filter (ws.contains ·))

/-- The words before a parameter, in order. -/
def paramWords : List Text := ["public", "private", "protected", "override", "readonly"]

/-- A parameter. -/
def param (mods : List Text) (optional : Bool) (ds pat t d : Piece) (p : Place) : Text :=
  ds.text p ++ ordered paramWords mods ++ pat.text p.later ++ given optional "?"
    ++ t.ifPresent ": " p.later ++ d.ifPresent " = " (p.later Level.comma)

/-- How an expression or a part of one is written. -/
def expression : Kind → List Piece → Place → Text
  | .identifier n, _, _ | .target n, _, _ | .binding n, _, _ | .word n, _, _ => n
  | .privateName n, _, _ => "#" ++ n
  | .this, _, _ => "this"
  | .superRef, _, _ => "super"
  | .null, _, _ => "null"
  | .boolean b, _, _ => if b then "true" else "false"
  | .number v, _, _ => v.written
  | .numeral raw, _, _ => raw
  | .bigint d, _, _ => d ++ "n"
  | .string v h, _, _ => Quoted.single v h
  | .regex r f, _, _ => "/" ++ r ++ "/" ++ f
  | .template ts, qs, p => "`" ++ template Quoted.keepScript ts qs p ++ "`"
  | .taggedTemplate, [t, ts, q], p =>
    t.text (p.leading Level.update) ++ ts.text p.later ++ q.text p.later
  | .importMeta, _, _ => "import.meta"
  | .newTarget, _, _ => "new.target"
  | .array, qs, p => array qs p
  | .spread, [e], p => "..." ++ e.text (p.fresh Level.comma)
  | .object, qs, p => object qs p
  | .property form, [k, v], p => property form k v p
  | .function form, [id, ts, ps, r, body], p => function form id ts ps r body p
  | .arrow form, [ts, ps, r, body], p => arrow form ts ps r body p
  | .params, qs, p => commas qs p.later
  | .param mods optional, [ds, pat, t, d], p => param mods optional ds pat t d p
  | .restParam, [pat, t], p => "..." ++ pat.text p.later ++ t.ifPresent ": " p.later
  | .thisParam, [t], p => "this" ++ t.ifPresent ": " p.later
  | .class form, [ds, id, ts, base, args, ifaces, body], p =>
    class_ form ds id ts base args ifaces body p
  | .decorators, qs, p => decorators qs p
  | .unary op, [e], p => unary op e p
  | .update increment before, [e], p => update increment before e p
  | .binary op, [l, r], p =>
    match l.kind with
    | .privateName _ => privateIn l r p
    | _ => binary op l r p
  | .assign op, [t, e], p => assign op t e p
  | .conditional, [t, a, b], p => conditional t a b p
  | .sequence, qs, p => sequence qs p
  | .call link pure, f :: ts :: args, p => call link pure f ts args p
  | .new pure, f :: ts :: args, p => new pure f ts args p
  | .member link n, [o], p => member link n o p
  | .privateMember link n, [o], p => privateMember link n o p
  | .index link, [o, i], p => index link o i p
  | .importCall phase, [s, o], p =>
    wrap (Level.new ≤ p.level || p.noCall) p fun p =>
      "import" ++ given phase.isSome ("." ++ phase.getD []) ++ "("
        ++ s.text (p.fresh Level.comma) ++ o.ifPresent ", " (p.fresh Level.comma) ++ ")"
  | .await, [e], p =>
    wrap (Level.unary ≤ p.level) p fun p => "await " ++ e.text (p.later Level.power)
  | .yield delegate, [e], p =>
    wrap (Level.assign ≤ p.level) p fun p =>
      "yield" ++ given delegate "*" ++ e.ifPresent " " (p.later Level.yield)
  | .ascription satisfies, [e, t], p =>
    wrap (Level.compare ≤ p.level) p fun p =>
      e.text (p.first Level.power) ++ (if satisfies then " satisfies " else " as ")
        ++ t.text p.later
  | .nonNull ends, [e], p =>
    wrap (ends && Level.update ≤ p.level) p fun p => e.text p ++ "!"
  | .instantiation, [e, ts], p => e.text p ++ ts.text p.later
  | .objectPattern, [], _ => "\x7b\x7d"
  | .objectPattern, qs, p => "\x7b " ++ commas qs p.later ++ " \x7d"
  | .patternProperty computed _, [k, v], p => patternProperty computed k v p
  | .arrayPattern, qs, p => arrayPattern qs p
  | .arrayTarget, qs, p => "[" ++ arrayElements qs p ++ "]"
  | .defaultPattern, [t, d], p | .defaultTarget, [t, d], p =>
    t.text (p.later Level.comma) ++ " = " ++ d.text (p.fresh Level.comma)
  | .rest, [t], p => "..." ++ t.text (p.later Level.comma)
  | .objectTarget, qs, p => "\x7b" ++ commas qs p.later ++ "\x7d"
  | .targetShorthand, [t, d], p => t.text p.later ++ d.ifPresent " = " (p.fresh Level.comma)
  | .targetProperty computed, [k, t], p => key computed k p ++ ": " ++ t.text (p.later Level.comma)
  | _, _, _ => []

end Unhook.Printer
