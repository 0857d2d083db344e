import Unhook.Grammar.Markup
import Unhook.Grammar.Statement
import Unhook.Syntax.View

/-!
# Reading modules

Here the recursion through the goals is closed: `rules` answers every goal with
its rule, and may be asked again as often as its fuel lasts. No rule asks more
than a few times before something is read, so a few times as much fuel as the
source has characters is more than enough.

* `parseModule?`: the statements of a module, without its directives.
-/

namespace Unhook.Grammar

open Parse

/-- The rule for each goal. -/
def rule (self : Rules) : Goal → Parse Node
  | .expression => expressionRule self
  | .assignment => assignmentRule self
  | .operand level => operandRule self level
  | .unary => unaryRule self
  | .leftHand => links self true
  | .callee => links self false
  | .statement => statementRule self
  | .pattern => patternRule self
  | .functionExpression => function self false true
  | .classExpression => classExpression self
  | .element => elementRule self
  | .type => typeRule self
  | .resultType => resultTypeRule self
  | .typeOperand => typeOperandRule self

/-- How goals are read with some fuel. -/
def rules : (fuel : Nat) → Rules
  | 0, _ => fail
  | fuel + 1, goal => rule (rules fuel) goal

/-- The statements of a module up to the end of the source. -/
def moduleItems (self : Rules) : Parse (List Node) :=
  statements self (do return (← token) = .eof)

/-- The source without a first line that begins with `#!`, and where it begins. -/
def skipHashbang : Text → Nat × Text
  | '#' :: '!' :: t =>
    let line := t.takeWhile (!Text.isLineEnd ·)
    (2 + Text.byteLength line, t.drop line.length)
  | t => (0, t)

/-- The cursor at the beginning of a source. -/
def startCursor (source : Text) : Cursor :=
  let (offset, t) := skipHashbang source
  { toLexeme := Lexeme.next offset t, lastStop := 0, bound := source.length + 2 }

/-- The names that a declaration introduces. -/
def declaredNames : Node → List Text
  | .mk (.declaration _ _) _ ds => ds.flatMap fun
      | .mk (.declarator _) _ (p :: _) => p.names
      | _ => []
  | .mk (.function _) _ (id :: _) | .mk (.class _) _ (_ :: id :: _) => id.names
  | _ => []

/-- The names that a statement exports. -/
def exportedNames : Node → List Text
  | .mk .exportDefault _ _ => ["default"]
  | .mk (.exportList _ entries _) _ _ => entries.map fun e => e.outer.text
  | .mk (.exportAll _ (some n) _) _ _ => [n.text]
  | .mk .exportDeclaration _ [d] => declaredNames d
  | _ => []

/-- Whether a module is well formed beyond its grammar: a property with a
    default is part of a pattern, and no name is exported twice. -/
def wellFormed (typescript : Bool) (items : List Node) : Bool :=
  !Node.anyList (·.kind = .defaulted) items &&
    (typescript || distinct (items.flatMap exportedNames))

/-- The statements of a module, if the source is one. -/
def parseModule? (typescript : Bool) (source : Text) : Option (List Node) := do
  let fuel := 4 * (source.length + 2)
  let items ← (moduleItems (rules fuel) { typescript } (startCursor source)).1
  guard (wellFormed typescript items)
  return items.filter (!·.isDirective)

end Unhook.Grammar
