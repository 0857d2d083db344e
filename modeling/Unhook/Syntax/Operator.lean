import Unhook.Text.Basic

/-!
# Operators

The operators of expressions, the symbols they are written with, and how
tightly they bind. A *level* is a natural number; an expression is put in
parentheses where its own level does not exceed the level that its place asks
for.
-/

namespace Unhook

namespace Level

/-- Anything can stand here. -/
def lowest : Nat := 0
def comma : Nat := 1
def spread : Nat := 2
def yield : Nat := 3
def assign : Nat := 4
def conditional : Nat := 5
def coalesce : Nat := 6
def or : Nat := 7
def and : Nat := 8
def bitOr : Nat := 9
def bitXor : Nat := 10
def bitAnd : Nat := 11
def equality : Nat := 12
def compare : Nat := 13
def shift : Nat := 14
def add : Nat := 15
def multiply : Nat := 16
def power : Nat := 17
/-- An operator before its operand. -/
def unary : Nat := 18
/-- An operator after its operand, and the object of a member. -/
def update : Nat := 19
def new : Nat := 20
def call : Nat := 21

end Level

/-- Operators with one operand, written before it. -/
inductive UnaryOp
  | minus | plus | not | bitNot | typeof | void | delete
  deriving DecidableEq, Repr

namespace UnaryOp

/-- The symbol of an operator. -/
def symbol : UnaryOp → Text
  | minus => "-" | plus => "+" | not => "!" | bitNot => "~"
  | typeof => "typeof" | void => "void" | delete => "delete"

/-- Whether an operator is a word, and so is followed by a blank. -/
def isWord : UnaryOp → Bool
  | typeof | void | delete => true
  | _ => false

/-- All the operators. -/
def all : List UnaryOp := [minus, plus, not, bitNot, typeof, void, delete]

end UnaryOp

/-- Operators with two operands. -/
inductive BinaryOp
  | coalesce | or | and | bitOr | bitXor | bitAnd
  | eq | ne | strictEq | strictNe
  | lt | le | gt | ge | in | instanceof
  | shl | shr | ushr | add | sub | mul | div | rem | pow
  deriving DecidableEq, Repr

namespace BinaryOp

/-- The symbol of an operator. -/
def symbol : BinaryOp → Text
  | coalesce => "??" | or => "||" | and => "&&" | bitOr => "|" | bitXor => "^" | bitAnd => "&"
  | eq => "==" | ne => "!=" | strictEq => "===" | strictNe => "!=="
  | lt => "<" | le => "<=" | gt => ">" | ge => ">=" | .in => "in" | instanceof => "instanceof"
  | shl => "<<" | shr => ">>" | ushr => ">>>" | add => "+" | sub => "-" | mul => "*" | div => "/"
  | rem => "%" | pow => "**"

/-- How tightly an operator binds. -/
def level : BinaryOp → Nat
  | coalesce => Level.coalesce | or => Level.or | and => Level.and | bitOr => Level.bitOr
  | bitXor => Level.bitXor | bitAnd => Level.bitAnd
  | eq | ne | strictEq | strictNe => Level.equality
  | lt | le | gt | ge | .in | instanceof => Level.compare
  | shl | shr | ushr => Level.shift
  | add | sub => Level.add
  | mul | div | rem => Level.multiply
  | pow => Level.power

/-- Whether an operator is one of the three that may not evaluate their right
    operand. -/
def isLogical : BinaryOp → Bool
  | coalesce | or | and => true
  | _ => false

/-- All the operators. -/
def all : List BinaryOp :=
  [coalesce, or, and, bitOr, bitXor, bitAnd, eq, ne, strictEq, strictNe, lt, le, gt, ge, .in,
    instanceof, shl, shr, ushr, add, sub, mul, div, rem, pow]

/-- The operators that an assignment can be combined with. -/
def combinable : List BinaryOp :=
  [coalesce, or, and, bitOr, bitXor, bitAnd, shl, shr, ushr, add, sub, mul, div, rem, pow]

/-- The operator that a symbol stands for. -/
def ofSymbol? (s : Text) : Option BinaryOp := all.find? (·.symbol = s)

end BinaryOp

/-- The symbol of an assignment, combined with an operator or plain. -/
def assignSymbol : Option BinaryOp → Text
  | none => "="
  | some op => op.symbol ++ "="

/-- The assignment that a symbol stands for. -/
def assignOfSymbol? (s : Text) : Option (Option BinaryOp) :=
  if s = "=" then some none
  else (BinaryOp.combinable.find? (fun op => assignSymbol (some op) = s)).map some

end Unhook
