import Unhook.Numeral.Written
import Unhook.Syntax.Node
import Unhook.Token.Quoted

/-!
# Places

How a node is written depends on where it stands: how tightly the place binds,
how far lines are indented there, and what the first characters would be
mistaken for (`Place`).

The rules of the printer do not recurse. A rule is given the parts of a node as
*pieces*: each a node, and how it is written at any place, with its own parts
as pieces again.
-/

namespace Unhook.Printer

/-- What the characters at a place begin, if they begin something. -/
inductive Opening
  | nothing
  /-- A statement: a brace, a function or a class would be one itself. -/
  | statement
  /-- The body of an arrow: a brace would be a block. -/
  | arrowBody
  /-- A default export: a function or a class would be a declaration. -/
  | defaultExport
  /-- A declaration that is exported. -/
  | exported
  deriving DecidableEq, Repr

/-- Where a node is written. -/
structure Place where
  /-- How tightly the place binds: what binds less gets parentheses. -/
  level : Nat := Level.lowest
  /-- The number of tabs that a line begins with. -/
  indent : Nat := 0
  opening : Opening := .nothing
  /-- Whether `in` could be mistaken for part of a loop. -/
  noIn : Bool := false
  /-- Whether a call could be mistaken for the arguments of `new`. -/
  noCall : Bool := false

namespace Place

/-- A place of another level where nothing can be mistaken. -/
def fresh (p : Place) (level : Nat := Level.lowest) : Place := { level, indent := p.indent }

/-- A place of another level that begins what `p` begins. -/
def first (p : Place) (level : Nat := Level.lowest) : Place := { p with level }

/-- A place of another level that begins what `p` begins, where nothing else can
    be mistaken. -/
def leading (p : Place) (level : Nat := Level.lowest) : Place :=
  { p.fresh level with opening := p.opening }

/-- A place of another level, where nothing begins. -/
def later (p : Place) (level : Nat := Level.lowest) : Place :=
  { p with level, opening := .nothing }

/-- A place where a call is no more mistaken for the arguments of `new`. -/
def callable (p : Place) : Place := { p with noCall := false }

/-- A place with lines indented once more. -/
def deeper (p : Place) : Place := { p with indent := p.indent + 1 }

end Place

/-- A part of a node, how it is written, and its own parts. -/
inductive Piece
  | mk (node : Node) (text : Place → Text) (parts : List Piece)

namespace Piece

/-- The node that a piece is of. -/
def node : Piece → Node
  | mk n _ _ => n

/-- How a piece is written. -/
def text : Piece → Place → Text
  | mk _ t _ => t

/-- The parts of a piece. -/
def parts : Piece → List Piece
  | mk _ _ qs => qs

/-- The kind of a part. -/
def kind (q : Piece) : Kind := q.node.kind

/-- Whether a part is not there. -/
def isAbsent (q : Piece) : Bool := q.node.isAbsent

/-- What a part is written as, with a text before it, if it is there. -/
def ifPresent (q : Piece) (before : Text) (p : Place) : Text :=
  if q.isAbsent then [] else before ++ q.text p

end Piece

/-- A text, if a condition holds. -/
def given (b : Bool) (t : Text) : Text := if b then t else []

/-- The blanks that a line begins with. -/
def tabs (n : Nat) : Text := List.replicate n '\t'

/-- A text in parentheses, if they are needed. Inside them nothing begins. -/
def wrap (needed : Bool) (p : Place) (body : Place → Text) : Text :=
  if needed then "(" ++ body { p with opening := .nothing } ++ ")" else body p

/-- Pieces with commas between them. -/
def commas (qs : List Piece) (p : Place) : Text := Text.join ", " (qs.map (·.text p))

/-- Lines in braces, each at a deeper place; braces alone if there are none. -/
def braces (lines : List (Place → Text)) (p : Place) : Text :=
  if lines.isEmpty then "\x7b\x7d"
  else "\x7b\n" ++ (lines.map fun l => l p.deeper).flatten ++ tabs p.indent ++ "\x7d"

/-- A statement on lines of its own. -/
def line (q : Piece) (p : Place) : Text := tabs p.indent ++ q.text p.later

end Unhook.Printer
