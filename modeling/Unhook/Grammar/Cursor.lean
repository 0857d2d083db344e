import Unhook.Syntax.Node
import Unhook.Token.Basic

/-!
# Reading with a cursor

A *parser* reads on from a cursor, in a context, and answers what it read or
refuses. The cursor holds one token; it is read again in another way where the
grammar asks for it. After a parser has refused, another one can be tried at the
same place (`attempt`); all that is left behind then is where no arrow begins,
so that no place is tried for one twice.

Parsers are written without recursion. What a rule needs from the rules above
it is asked for by a *goal* (`Goal`), and the one recursion through all goals is
closed where modules are read.
-/

namespace Unhook.Grammar

/-- What may stand where the cursor is. -/
structure Context where
  typescript : Bool
  /-- Whether `await` is an operator. -/
  await : Bool := true
  /-- Whether `yield` is an operator. -/
  yield : Bool := false
  /-- Whether `in` is an operator. -/
  inAllowed : Bool := true
  /-- Whether `return` is a statement. -/
  returnAllowed : Bool := false
  /-- Whether an arrow may have a result type without regard to what follows. -/
  arrowResults : Bool := true
  /-- Whether the cursor is in a decorator, to which no index belongs. -/
  decorator : Bool := false
  /-- Whether what is declared is defined elsewhere. -/
  ambient : Bool := false
  /-- Whether `extends` after a type makes it conditional. -/
  conditionalTypes : Bool := true

/-- A place in the source. -/
structure Cursor extends Lexeme where
  /-- Where the token before ended. -/
  lastStop : Nat
  /-- More than the number of characters of the source. -/
  bound : Nat
  /-- Where parentheses begin that are known to be no parameters of an arrow. -/
  noArrows : List Nat := []
  /-- Where lists begin that have a comma at their end. -/
  trailing : List Nat := []

/-- Parsers. -/
abbrev Parse := ReaderT Context (OptionT (StateM Cursor))

/-- What a rule can ask of the rules above it. -/
inductive Goal
  /-- Expressions, perhaps several with commas between them. -/
  | expression
  /-- One expression. -/
  | assignment
  /-- Operands of a binary operator of the given level. -/
  | operand (level : Nat)
  | unary
  /-- Members and calls, without operators. -/
  | leftHand
  /-- What `new` makes an object of. -/
  | callee
  | statement
  | pattern
  | functionExpression
  | classExpression
  | element
  | type
  /-- A type, or a statement about a parameter. -/
  | resultType
  /-- A type without operators of lower precedence around it. -/
  | typeOperand

/-- How goals are read. -/
abbrev Rules := Goal → Parse Node

namespace Parse

/-- Refuses. -/
def fail {α : Type} : Parse α := fun _ c => (none, c)

/-- Goes on if the condition holds. -/
def check (b : Bool) : Parse Unit := if b then pure () else fail

/-- Reads with `p`, or reads nothing if `p` refuses. -/
def attempt {α : Type} (p : Parse α) : Parse (Option α) := fun ctx c =>
  match p ctx c with
  | (some a, d) => (some (some a), d)
  | (none, d) => (some none, { c with noArrows := d.noArrows })

/-- Finds out with `p`, which reads nothing. -/
def lookahead (p : Parse Bool) : Parse Bool := fun ctx c =>
  match p ctx c with
  | (some b, d) => (some b, { c with noArrows := d.noArrows })
  | (none, d) => (some false, { c with noArrows := d.noArrows })

/-- Reads with `p` in a changed context. -/
def within {α : Type} (f : Context → Context) (p : Parse α) : Parse α := fun ctx => p (f ctx)

/-- Reads as in brackets: `in` is an operator, and arrows may have result
    types. -/
def withIn {α : Type} (p : Parse α) : Parse α :=
  within ({ · with inAllowed := true, arrowResults := true }) p

/-- The token at the cursor. -/
def token : Parse Token := do return (← get).token

/-- Where the token at the cursor begins. -/
def start : Parse Nat := do return (← get).start

/-- Whether a line ended before the token at the cursor. -/
def newline : Parse Bool := do return (← get).newline

/-- The stretch from an offset to the end of the last token. -/
def spanFrom (start : Nat) : Parse Span := do return ⟨start, (← get).lastStop⟩

/-- A node that begins at an offset and ends with the last token. -/
def node (kind : Kind) (start : Nat) (parts : List Node) : Parse Node := do
  return .mk kind (← spanFrom start) parts

/-- Moves to the lexeme after a number of characters, which end at an offset. -/
def jump (stop : Nat) (rest : Text) : Parse Unit := modify fun c =>
  { c with toLexeme := Lexeme.next stop rest, lastStop := stop }

/-- Moves to the next token. -/
def advance : Parse Unit := do
  let c ← get
  jump c.stop c.rest

/-- Moves past one character of the token. -/
def advanceChar : Parse Unit := do
  let c ← get
  match c.here with
  | d :: t => jump (c.start + d.utf8Size) t
  | [] => fail

/-- The lexeme after the one at the cursor. -/
def peek : Parse Lexeme := do return (← get).after

/-- Whether the token is a symbol. -/
def isPunct (s : Text) : Parse Bool := do return (← token) = .punct s

/-- Whether the token is a keyword. -/
def isWord (s : Text) : Parse Bool := do return (← token) = .word s true

/-- Whether the characters at the cursor begin with `d`. -/
def isChar (d : Char) : Parse Bool := do return (← get).here.head? = some d

/-- Reads a symbol, if it is there. -/
def eat (s : Text) : Parse Bool := do
  if ← isPunct s then
    advance
    return true
  return false

/-- Reads a keyword, if it is there. -/
def eatWord (s : Text) : Parse Bool := do
  if ← isWord s then
    advance
    return true
  return false

/-- Reads a symbol. -/
def expect (s : Text) : Parse Unit := do check (← eat s)

/-- Reads a keyword. -/
def expectWord (s : Text) : Parse Unit := do check (← eatWord s)

/-- What a step of a loop answers. -/
inductive Step (σ α : Type)
  | more (state : σ)
  | done (result : α)

/-- Takes at most a number of steps. -/
def iterate {σ α : Type} (step : σ → Parse (Step σ α)) : Nat → σ → Parse α
  | 0, _ => fail
  | n + 1, s => do
    match ← step s with
    | .more s => iterate step n s
    | .done a => return a

/-- Takes steps until one is the last. Each but the last reads something, so
    the bound of the cursor is never reached. -/
def loop {σ α : Type} (s : σ) (step : σ → Parse (Step σ α)) : Parse α := do
  iterate step (← get).bound s

/-- Reads items until a closing symbol, which is read too. -/
def until_ (close : Text) (item : Parse Node) : Parse (List Node) :=
  loop [] fun items => do
    if ← eat close then return .done items.reverse
    return .more ((← item) :: items)

/-- Reads items with commas between them until a closing symbol, which is read
    too; a comma may stand before it. -/
def commaUntil (close : Text) (item : Parse Node) : Parse (List Node) :=
  loop [] fun items => do
    if ← eat close then return .done items.reverse
    let i ← item
    if ← eat "," then return .more (i :: items)
    expect close
    return .done (i :: items).reverse

/-- Takes note that the list that begins at an offset has a comma at its end, if
    the one at the cursor is that. -/
def noteTrailing (start : Nat) (close : Text) : Parse Unit := do
  if (← isPunct ",") && (← peek).token = .punct close then
    modify fun c => { c with trailing := start :: c.trailing }

/-- Reads items with a separator between them, at least one. -/
def separated (sep : Text) (item : Parse Node) : Parse (List Node) := do
  loop [← item] fun items => do
    if ← eat sep then return .more ((← item) :: items)
    return .done items.reverse

/-- Reads the end of a statement: a semicolon, or nothing at the end of a line,
    of a block or of the source. -/
def semicolon : Parse Unit := do
  if ← eat ";" then return
  if ← isPunct "\x7d" then return
  if (← token) = .eof then return
  check (← newline)

/-- The text of a string, and whether halves of characters are spelled out in
    it. -/
def string : Parse (Text × Bool) := do
  match ← token with
  | .string value halves _ =>
    advance
    return (value, halves)
  | _ => fail

end Parse

/-- Words that are never names. -/
def reserved : List String :=
  ["break", "case", "catch", "class", "const", "continue", "debugger", "default", "delete", "do",
    "else", "enum", "export", "extends", "false", "finally", "for", "function", "if", "import",
    "in", "instanceof", "new", "null", "return", "super", "switch", "this", "throw", "true", "try",
    "typeof", "var", "void", "while", "with"]

/-- Whether a word is a name in a context. -/
def isName (ctx : Context) (name : Text) : Bool :=
  !name.oneOf reserved && !(ctx.await && name = "await") && !(ctx.yield && name = "yield")

namespace Parse

/-- The name at the cursor, which is not read, if the token is one. -/
def nameHere? : Parse (Option Text) := do
  match ← token with
  | .word name _ => return if isName (← read) name then some name else none
  | _ => return none

/-- Reads a name. -/
def name : Parse Text := do
  match ← nameHere? with
  | some n =>
    advance
    return n
  | none => fail

/-- Reads a word, which may be a keyword. -/
def word : Parse Text := do
  match ← token with
  | .word n _ =>
    advance
    return n
  | _ => fail

/-- Whether types are read. -/
def typed : Parse Bool := do return (← read).typescript

end Parse

end Unhook.Grammar
