import Unhook.Syntax.Operator
import Unhook.Text.Position

/-!
# Syntax trees

A module is a list of *nodes*. A node has a kind, the stretch of the source it
was read from, and its parts in the order in which they are written. The kind
says what the parts are; a part that may be missing is the node `absent`, so
that each part keeps its place.

Everything that walks over a tree does so by one recursion on nodes and lists
of nodes. What a name *does* is said by its kind alone: `identifier` is a name
used as an expression, `target` one that is assigned to, `tagRef` one that an
element is made with and `typeName` one that a type refers to — these four are
*references* (`Kind.reference?`) — while `binding` introduces a name and `word`
is a name that refers to nothing.

A chain `a?.b.c` is a nest of members and calls of which the outermost one
`ends` it. Such a node is a value only as a whole, which is why calls that end
a chain are not calls in expression position.
-/

namespace Unhook

/-- How a member access or a call takes part in an optional chain. -/
structure Link where
  /-- Whether it is written with `?.`. -/
  optional : Bool := false
  /-- Whether a chain ends with it. -/
  ends : Bool := false
  deriving DecidableEq, Repr

/-- A link that takes no part in a chain. -/
def Link.plain : Link := {}

/-- How variables are declared. -/
inductive VarKind
  | var | let | const | using | awaitUsing
  deriving DecidableEq, Repr

/-- The word that a declaration begins with. -/
def VarKind.word : VarKind → Text
  | .var => "var" | .let => "let" | .const => "const" | .using => "using"
  | .awaitUsing => "await using"

/-- What a function is. -/
structure FunctionForm where
  /-- Whether it is a statement, and not an expression or a method. -/
  declaration : Bool := false
  async : Bool := false
  generator : Bool := false
  /-- Whether the expression was written in parentheses of its own. -/
  parens : Bool := false
  declare : Bool := false
  /-- Whether a comment says that its calls have no effects. -/
  inert : Bool := false
  deriving DecidableEq, Repr

/-- What an arrow is. -/
structure ArrowForm where
  async : Bool := false
  /-- Whether it was written in parentheses of its own. -/
  parens : Bool := false
  /-- Whether a comment says that its calls have no effects. -/
  inert : Bool := false
  deriving DecidableEq, Repr

/-- What a class is. -/
structure ClassForm where
  declaration : Bool := false
  abstract : Bool := false
  declare : Bool := false
  deriving DecidableEq, Repr

/-- What a property or a method does. -/
inductive Role
  | value | method | getter | setter
  deriving DecidableEq, Repr

/-- What a property of an object is. -/
structure PropertyForm where
  role : Role := .value
  computed : Bool := false
  shorthand : Bool := false
  deriving DecidableEq, Repr

/-- What a member of a class or of a type is. -/
structure MemberForm where
  /-- The words before the name. -/
  modifiers : List Text := []
  role : Role := .value
  computed : Bool := false
  optional : Bool := false
  definite : Bool := false
  deriving DecidableEq, Repr

/-- A name in an import or an export list: a word or a string. -/
inductive ModuleName
  | word (name : Text)
  | quoted (value : Text) (halves : Bool)
  deriving DecidableEq, Repr

/-- The name itself. -/
def ModuleName.text : ModuleName → Text
  | word n | quoted n _ => n

/-- One entry of an import or an export list: the name on the side of this
    module, the name on the other side. -/
structure ModuleEntry where
  typeOnly : Bool := false
  inner : ModuleName
  outer : ModuleName
  deriving DecidableEq, Repr

/-- The names that an import brings in. -/
structure ImportClause where
  /-- The word that says when the module is loaded, `defer` or `source`. -/
  phase : Option Text := none
  default : Option Text := none
  namespace_ : Option Text := none
  /-- The entries in braces, if there are braces. -/
  entries : Option (List ModuleEntry) := none
  deriving DecidableEq, Repr

/-- The attributes of an import. -/
structure ImportAttributes where
  /-- The word that they begin with, `with` or `assert`. -/
  word : Text
  /-- Names with their values, which are spelled out like strings. -/
  items : List (ModuleName × Text × Bool)
  deriving DecidableEq, Repr

/-- Where an import or an export takes its names from. -/
structure ModuleSource where
  path : Text
  /-- Whether halves of characters are spelled out in the path. -/
  halves : Bool := false
  attributes : Option ImportAttributes := none
  deriving DecidableEq, Repr

/-- A number as a floating-point value: `mantissa * 2 ^ exponent`, or infinity. -/
inductive Numeral
  | finite (mantissa : Nat) (exponent : Int)
  | infinity
  deriving DecidableEq, Repr

/-- The kinds of nodes, with the parts that each has. -/
inductive Kind
  /-- A part that is not there. -/
  | absent
  -- Names
  | identifier (name : Text)
  | target (name : Text)
  | binding (name : Text)
  | word (name : Text)
  | privateName (name : Text)
  -- Literals
  | this
  | superRef
  | null
  | boolean (value : Bool)
  | number (value : Numeral)
  /-- A number in a type, which is kept as it is written. -/
  | numeral (raw : Text)
  | bigint (digits : Text)
  /-- A string; with `halves`, code units that are no characters are written
      as U+FFFD and four digits. -/
  | string (value : Text) (halves : Bool)
  | regex (pattern flags : Text)
  /-- The texts around the parts, which are expressions. -/
  | template (texts : List Text)
  /-- Parts: tag, type arguments, template. -/
  | taggedTemplate
  | importMeta
  | newTarget
  -- Expressions
  /-- Parts: elements, `elision` or `spread`. -/
  | array
  | elision
  | spread
  /-- Parts: `property` or `spread`. -/
  | object
  /-- Parts: key, value. -/
  | property (form : PropertyForm)
  /-- A shorthand property with a default, which only a pattern can have.
      Parts: identifier, default. -/
  | defaulted
  /-- Parts: name, type parameters, `params`, result type, body. -/
  | function (form : FunctionForm)
  /-- Parts: type parameters, `params`, result type, body. -/
  | arrow (form : ArrowForm)
  /-- Parts: `param`s and perhaps a `restParam`. -/
  | params
  /-- Parts: `decorators`, pattern, type, default. -/
  | param (modifiers : List Text) (optional : Bool)
  /-- Parts: pattern, type. -/
  | restParam
  /-- Parts: type. -/
  | thisParam
  /-- Parts: directives, then statements. -/
  | functionBody
  | directive (raw : Text)
  /-- Parts: `decorators`, name, type parameters, base, base type arguments,
      interfaces, body. -/
  | class (form : ClassForm)
  | classBody
  /-- Parts: `decorators`, key, function. -/
  | method (form : MemberForm)
  /-- Parts: `decorators`, key, type, value. -/
  | field (form : MemberForm)
  /-- Parts: expressions. -/
  | decorators
  | staticBlock
  | unary (op : UnaryOp)
  | update (increment before : Bool)
  | binary (op : BinaryOp)
  /-- Parts: target, value. -/
  | assign (op : Option BinaryOp)
  | conditional
  | sequence
  /-- Parts: callee, type arguments, then the arguments. A comment may say that
      the call is `pure`. -/
  | call (link : Link) (pure : Bool)
  /-- Parts: callee, type arguments, then the arguments. -/
  | new (pure : Bool)
  /-- Parts: object. -/
  | member (link : Link) (name : Text)
  /-- Parts: object, index. -/
  | index (link : Link)
  /-- Parts: object. -/
  | privateMember (link : Link) (name : Text)
  /-- Parts: source, options. -/
  | importCall (phase : Option Text)
  | await
  | yield (delegate : Bool)
  /-- Parts: expression, type. -/
  | ascription (satisfies : Bool)
  | nonNull (ends : Bool)
  /-- Parts: expression, type arguments. -/
  | instantiation
  -- Markup
  /-- Parts: opening tag, children, closing tag. -/
  | element
  /-- Parts: children. -/
  | fragment
  /-- Parts: name, type arguments, attributes. -/
  | opening
  /-- Parts: name. -/
  | closing
  | tag (name : Text)
  | tagRef (name : Text)
  | tagThis
  /-- Parts: object. -/
  | tagMember (name : Text)
  | tagNamespaced (space name : Text)
  /-- Parts: value. -/
  | attribute (space : Option Text) (name : Text)
  | spreadAttribute
  | attributeString (raw : Text)
  /-- Parts: expression or `emptyHole`. -/
  | container
  | emptyHole
  | spreadChild
  | markupText (raw : Text)
  -- Patterns
  /-- Parts: `patternProperty` or `rest`. -/
  | objectPattern
  /-- Parts: key, pattern. -/
  | patternProperty (computed shorthand : Bool)
  /-- Parts: patterns, `elision` or `rest`. -/
  | arrayPattern
  /-- Parts: pattern, default. -/
  | defaultPattern
  | rest
  /-- Parts: `targetShorthand`, `targetProperty` or `rest`. -/
  | objectTarget
  /-- Parts: target, default. -/
  | targetShorthand
  /-- Parts: key, target. -/
  | targetProperty (computed : Bool)
  | arrayTarget
  /-- Parts: target, default. -/
  | defaultTarget
  -- Statements
  | expressionStatement
  | block
  | empty
  | declaration (kind : VarKind) (declare : Bool)
  /-- Parts: pattern, type, initial value. -/
  | declarator (definite : Bool)
  /-- Parts: test, body, alternative. -/
  | ifStatement
  /-- Parts: initialization, test, update, body. -/
  | forStatement
  /-- Parts: left, right, body. -/
  | forIn
  /-- Parts: left, right, body. -/
  | forOf (await : Bool)
  | whileStatement
  /-- Parts: body, test. -/
  | doWhile
  /-- Parts: value, then the cases. -/
  | switch
  /-- Parts: test, then statements. -/
  | case
  | returnStatement
  | throwStatement
  | breakStatement (label : Option Text)
  | continueStatement (label : Option Text)
  /-- Parts: block, `catchClause`, block. -/
  | tryStatement
  /-- Parts: pattern, type, block. -/
  | catchClause
  | labeled (label : Text)
  | debugger
  | withStatement
  | importDeclaration (typeOnly : Bool) (clause : Option ImportClause) (source : ModuleSource)
  /-- Parts: declaration. -/
  | exportDeclaration
  | exportList (typeOnly : Bool) (entries : List ModuleEntry) (source : Option ModuleSource)
  | exportAll (typeOnly : Bool) (name : Option ModuleName) (source : ModuleSource)
  /-- Parts: declaration or expression. -/
  | exportDefault
  -- Types
  /-- A type that is a word: `string`, `any`, `this`. -/
  | typeWord (name : Text)
  | typeName (name : Text)
  /-- Parts: left. -/
  | qualified (name : Text)
  /-- Parts: name, type arguments. -/
  | typeReference
  | typeArguments
  | typeParameters
  /-- Parts: bound, default. -/
  | typeParameter (modifiers : List Text) (name : Text)
  | union
  | intersection
  | arrayType
  | tuple
  /-- Parts: type. -/
  | tupleMember (label : Option Text) (optional rest : Bool)
  | typeLiteral
  /-- Parts: type parameters, `params`, result type. -/
  | functionType (constructor_ abstract : Bool)
  /-- A type with a sign, before it or after it. Parts: type. -/
  | markedType (sign : Text) (before : Bool)
  /-- Parts: a literal, a template or a negative number. -/
  | literalType
  | typeOperator (word : Text)
  | indexedType
  /-- Parts: name, type arguments. -/
  | typeQuery
  /-- Parts: checked, bound, consequent, alternative. -/
  | conditionalType
  | inferType
  /-- Parts: constraint, name type, type. -/
  | mappedType (name : Text) (readonly_ optional : Option Text)
  /-- Parts: type. -/
  | predicate (asserts : Bool) (name : Text)
  /-- Parts: source, options, qualifier, type arguments. -/
  | importType
  | templateType (texts : List Text)
  /-- Parts: key, type. -/
  | propertySignature (form : MemberForm)
  /-- Parts: key, type parameters, `params`, result type. -/
  | methodSignature (form : MemberForm)
  /-- Parts: type parameters, `params`, result type. -/
  | callSignature (new : Bool)
  /-- Parts: key type, type. -/
  | indexSignature (modifiers : List Text) (name : Text)
  /-- Parts: type parameters, type. -/
  | typeAlias (declare : Bool) (name : Text)
  /-- Parts: type parameters, bases, body. -/
  | interface (name : Text)
  | heritage
  | interfaceBody
  /-- Parts: members. -/
  | enum (modifiers : List Text) (name : Text)
  /-- Parts: key, value. -/
  | enumMember (computed : Bool)
  /-- Parts: name, body. -/
  | namespace_ (modifiers : List Text) (word : Text)
  | moduleBlock
  /-- Parts: reference. -/
  | importEquals (name : Text)
  | externalModule
  | exportAssignment
  | exportNamespace (name : Text)
  deriving DecidableEq

/-- A node of a syntax tree. -/
inductive Node
  | mk (kind : Kind) (span : Span) (parts : List Node)

namespace Node

/-- The kind of a node. -/
def kind : Node → Kind
  | mk k _ _ => k

/-- The stretch of the source that a node was read from. -/
def span : Node → Span
  | mk _ s _ => s

/-- The parts of a node. -/
def parts : Node → List Node
  | mk _ _ ps => ps

/-- The node for a part that is not there. -/
def absent : Node := mk .absent Span.zero []

/-- Whether a part is not there. -/
def isAbsent (n : Node) : Bool := n.kind = .absent

/-- A part that may be missing. -/
def optional : Option Node → Node
  | some n => n
  | none => absent

/-- A part, unless it is not there. -/
def present? (n : Node) : Option Node := if n.isAbsent then none else some n

mutual

/-- Whether some node of a tree satisfies `p`. -/
def any (p : Node → Bool) : Node → Bool
  | mk k s ps => p (mk k s ps) || anyList p ps

/-- Whether some node of some trees satisfies `p`. -/
def anyList (p : Node → Bool) : List Node → Bool
  | [] => false
  | n :: ns => n.any p || anyList p ns

end

end Node

/-- The name that a kind of node refers to, if it is a reference. -/
def Kind.reference? : Kind → Option Text
  | .identifier n | .target n | .tagRef n | .typeName n => some n
  | _ => none

end Unhook
