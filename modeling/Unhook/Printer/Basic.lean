import Unhook.Printer.Markup
import Unhook.Printer.Statement
import Unhook.Printer.Types

/-!
# Writing syntax trees

Here the rules of the printer are put together: `Node.piece` gives every node
the text that the rule for its kind makes of its parts.

* `Node.printStatement`: a statement by itself;
* `Node.printExpression`: an expression as it is written at the beginning of a
  statement, without the semicolon;
* `Node.printPattern`: a pattern as it is written in a declaration.
-/

namespace Unhook

namespace Printer

/-- The families of rules. -/
inductive Family
  | expression | statement | markup | type

/-- The family that a kind of node belongs to. -/
def family : Kind → Family
  | .expressionStatement | .block | .empty | .declaration _ _ | .declarator _ | .ifStatement
  | .forStatement | .forIn | .forOf _ | .whileStatement | .doWhile | .switch | .case
  | .returnStatement | .throwStatement | .breakStatement _ | .continueStatement _ | .tryStatement
  | .catchClause | .labeled _ | .debugger | .withStatement | .directive _ | .functionBody
  | .classBody | .method _ | .field _ | .staticBlock | .importDeclaration _ _ _
  | .exportDeclaration | .exportList _ _ _ | .exportAll _ _ _ | .exportDefault => .statement
  | .element | .fragment | .opening | .closing | .tag _ | .tagRef _ | .tagThis | .tagMember _
  | .tagNamespaced _ _ | .attribute _ _ | .spreadAttribute | .attributeString _ | .container
  | .emptyHole | .spreadChild | .markupText _ => .markup
  | .typeWord _ | .typeName _ | .qualified _ | .typeReference | .typeArguments | .typeParameters
  | .typeParameter _ _ | .union | .intersection | .arrayType | .tuple | .tupleMember _ _ _
  | .typeLiteral | .functionType _ _ | .markedType _ _ | .literalType | .typeOperator _
  | .indexedType | .typeQuery | .conditionalType | .inferType | .mappedType _ _ _ | .predicate _ _
  | .importType | .templateType _ | .propertySignature _ | .methodSignature _ | .callSignature _
  | .indexSignature _ _ | .typeAlias _ _ | .interface _ | .heritage | .interfaceBody | .enum _ _
  | .enumMember _ | .namespace_ _ _ | .moduleBlock | .importEquals _ | .externalModule
  | .exportAssignment | .exportNamespace _ => .type
  | _ => .expression

/-- Whether a node of a kind is a declaration that ends its line. -/
def endsLine : Kind → Bool
  | .function form => form.declaration
  | .class form => form.declaration
  | _ => false

/-- How a node of a kind is written, given its parts. -/
def layout (k : Kind) (qs : List Piece) (p : Place) : Text :=
  match family k with
  | .expression => expression k qs p ++ given (endsLine k) "\n"
  | .statement => statement k qs p
  | .markup => markup k qs p
  | .type => type k qs p

end Printer

open Printer

namespace Node

mutual

/-- A node with the text that is made of its parts. -/
def piece : Node → Piece
  | mk k s ps => let qs := pieces ps; .mk (mk k s ps) (layout k qs) qs

/-- Nodes with the texts that are made of their parts. -/
def pieces : List Node → List Piece
  | [] => []
  | n :: ns => n.piece :: pieces ns

end

/-- A statement by itself. -/
def printStatement (n : Node) : Text :=
  Text.trimEnd ((bodyLines [n.piece]).map fun l => l {}).flatten

/-- An expression as it is written at the beginning of a statement. -/
def printExpression (n : Node) : Text :=
  let t := (Node.mk .expressionStatement n.span [n]).printStatement
  (Text.before? ";" t).getD t

/-- A pattern as it is written in a declaration. -/
def printPattern (n : Node) : Text := n.piece.text {}

end Node

end Unhook
