import Unhook.Printer.Statement

/-!
# How types are written

Types, and the declarations that only types are made of.
-/

namespace Unhook.Printer

/-- The parts of a signature. -/
def signature (ts ps r : Piece) (arrow : Text) (p : Place) : Text :=
  ts.text p.fresh ++ "(" ++ ps.text p.fresh ++ ")" ++ r.ifPresent arrow p.fresh

/-- Members of a type, each on a line, ended by a semicolon. -/
def members (qs : List Piece) (p : Place) : Text :=
  braces (qs.map fun q => fun p => tabs p.indent ++ q.text p.fresh ++ ";\n") p

/-- Whether a type has parentheses as a member of a union. -/
def isLoose (t : Node) : Bool :=
  match t.kind with
  | .functionType _ _ | .conditionalType => true
  | _ => false

/-- The members of a union, if it has more than one. -/
def union : List Piece → Place → Text
  | [q], p => q.text p.fresh
  | qs, p => Text.join " | " (qs.map fun q => wrap (isLoose q.node) p.fresh q.text)

/-- Members of an enumeration, each on a line, with commas between them. -/
def enumMembers (qs : List Piece) (p : Place) : Text :=
  if qs.isEmpty then "\x7b\x7d"
  else "\x7b" ++ itemLines (qs.map fun q => fun p => q.text p.fresh) p ++ "\x7d"

/-- Type parameters. A single one is followed by a comma, which keeps it from
    being read as an element. -/
def typeParameters (qs : List Piece) (p : Place) : Text :=
  match qs with
  | [q] => "<" ++ q.text p.fresh ++ ",>"
  | qs => "<" ++ itemLines (qs.map fun q => fun p => q.text p.fresh) p ++ ">"

/-- The words before a type parameter, in order. -/
def typeParameterWords : List Text := ["const", "in", "out"]

/-- How a type or a declaration of one is written. Parentheses around types are
    written in unions alone. -/
def type : Kind → List Piece → Place → Text
  | .typeWord n, _, _ | .typeName n, _, _ => n
  | .qualified n, [q], p => q.text p.fresh ++ "." ++ n
  | .typeReference, [n, ts], p => n.text p.fresh ++ ts.text p.fresh
  | .typeArguments, qs, p => "<" ++ commas qs p.fresh ++ ">"
  | .typeParameters, qs, p => typeParameters qs p
  | .typeParameter mods n, [b, d], p =>
    ordered typeParameterWords mods ++ n ++ b.ifPresent " extends " p.fresh
      ++ d.ifPresent " = " p.fresh
  | .union, qs, p => union qs p
  | .intersection, qs, p => Text.join " & " (qs.map (·.text p.fresh))
  | .arrayType, [t], p => t.text p.fresh ++ "[]"
  | .tuple, qs, p => "[" ++ commas qs p.fresh ++ "]"
  | .tupleMember label optional rest, [t], p =>
    given rest "..." ++ match label with
      | some n => n ++ given optional "?" ++ ": " ++ t.text p.fresh
      | none => t.text p.fresh ++ given optional "?"
  | .typeLiteral, qs, p => members qs p
  | .functionType constructor_ abstract, [ts, ps, r], p =>
    given abstract "abstract " ++ given constructor_ "new " ++ signature ts ps r " => " p
  | .markedType sign before, [t], p =>
    if before then sign ++ t.text p.fresh else t.text p.fresh ++ sign
  | .literalType, [e], p => e.text p.fresh
  | .typeOperator w, [t], p => w ++ " " ++ t.text p.fresh
  | .indexedType, [t, i], p => t.text p.fresh ++ "[" ++ i.text p.fresh ++ "]"
  | .typeQuery, [q, ts], p => "typeof " ++ q.text p.fresh ++ ts.text p.fresh
  | .conditionalType, [c, b, x, y], p =>
    c.text p.fresh ++ " extends " ++ b.text p.fresh ++ " ? " ++ x.text p.fresh ++ " : "
      ++ y.text p.fresh
  | .inferType, [t], p => "infer " ++ t.text p.fresh
  | .mappedType n readonly_ optional, [c, a, t], p =>
    "\x7b " ++ given readonly_.isSome (readonly_.getD [] ++ " ") ++ "[" ++ n ++ " in "
      ++ c.text p.fresh ++ a.ifPresent " as " p.fresh ++ "]" ++ optional.getD []
      ++ " " ++ t.ifPresent ": " p.fresh ++ " \x7d"
  | .predicate asserts n, [t], p => given asserts "asserts " ++ n ++ t.ifPresent " is " p.fresh
  | .importType, [s, o, q, ts], p =>
    "import(" ++ s.text p.fresh ++ o.ifPresent ", " p.fresh ++ ")" ++ q.ifPresent "." p.fresh
      ++ ts.text p.fresh
  | .templateType ts, qs, p => "`" ++ template id ts qs p ++ "`"
  | .propertySignature form, [k, t], p =>
    words form.modifiers ++ key form.computed k p ++ given form.optional "?"
      ++ t.ifPresent ": " p.fresh
  | .methodSignature form, [k, ts, ps, r], p =>
    roleWord form.role ++ key form.computed k p ++ given form.optional "?"
      ++ signature ts ps r ": " p
  | .callSignature new, [ts, ps, r], p => given new "new " ++ signature ts ps r ": " p
  | .indexSignature mods n, [k, t], p =>
    ordered ["readonly"] mods ++ "[" ++ n ++ ": " ++ k.text p.fresh ++ "]: " ++ t.text p.fresh
  | .typeAlias declare n, [ts, t], p =>
    given declare "declare " ++ "type " ++ n ++ ts.text p.fresh ++ " = " ++ t.text p.fresh ++ ";\n"
  | .interface n, [ts, bs, b], p =>
    "interface " ++ n ++ ts.text p.fresh
      ++ bs.ifPresent " extends " p.fresh ++ " " ++ b.text p.fresh ++ "\n"
  | .heritage, qs, p => commas qs p.fresh
  | .interfaceBody, qs, p => members qs p
  | .enum mods n, qs, p =>
    tabs p.indent ++ words mods ++ "enum " ++ n ++ " " ++ enumMembers qs p.later ++ "\n"
  | .enumMember computed, [k, v], p => key computed k p ++ v.ifPresent " = " p.later
  | .namespace_ mods w, [n, b], p =>
    words mods ++ w ++ n.ifPresent " " p.fresh
      ++ (if b.isAbsent then (";" : Text) else " " ++ b.text p.later) ++ "\n"
  | .moduleBlock, qs, p => braces (bodyLines qs) p
  | .importEquals n, [t], p => "import " ++ n ++ " = " ++ t.text p.fresh ++ ";\n"
  | .externalModule, [s], p => "require(" ++ s.text p.fresh ++ ")"
  | .exportAssignment, [e], p => "export = " ++ e.text p.fresh ++ ";\n"
  | .exportNamespace n, _, _ => "export as namespace " ++ n ++ ";\n"
  | _, _, _ => []

end Unhook.Printer
