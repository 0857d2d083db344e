import Unhook.Printer.Place

/-!
# How markup is written

Text and attribute strings are written as they were read; nothing is indented
and no blank is added but the one before an attribute and the one before the
end of a tag without children. Type arguments are left out.
-/

namespace Unhook.Printer

/-- A string in an attribute: in double quotes, unless it holds one. -/
def attributeString (raw : Text) : Text :=
  let q : Text := if raw.contains '"' then "'" else "\""
  q ++ raw ++ q

/-- The tag that opens an element, without its end. -/
def openingTag (n : Piece) (attrs : List Piece) (p : Place) : Text :=
  "<" ++ n.text p.fresh ++ (attrs.map fun a => ' ' :: a.text p.fresh).flatten

/-- How markup is written. -/
def markup : Kind → List Piece → Place → Text
  | .element, o :: qs, p =>
    let tag := o.text p.fresh
    match qs.reverse with
    | c :: children =>
      if c.isAbsent then tag ++ " />"
      else tag ++ ">" ++ (children.reverse.map (·.text p.fresh)).flatten ++ c.text p.fresh
    | [] => tag
  | .fragment, qs, p => "<>" ++ (qs.map (·.text p.fresh)).flatten ++ "</>"
  | .opening, n :: _ :: attrs, p => openingTag n attrs p
  | .closing, [n], p => "</" ++ n.text p.fresh ++ ">"
  | .tag n, _, _ | .tagRef n, _, _ => n
  | .tagThis, _, _ => "this"
  | .tagMember n, [o], p => o.text p.fresh ++ "." ++ n
  | .tagNamespaced a b, _, _ => a ++ ":" ++ b
  | .attribute space n, [v], p =>
    given space.isSome (space.getD [] ++ ":") ++ n ++ v.ifPresent "=" p.fresh
  | .spreadAttribute, [e], p => "\x7b..." ++ e.text (p.fresh Level.comma) ++ "\x7d"
  | .attributeString raw, _, _ => attributeString raw
  | .container, [e], p => "\x7b" ++ e.text p.fresh ++ "\x7d"
  | .spreadChild, [e], p => "\x7b..." ++ e.text p.fresh ++ "\x7d"
  | .markupText raw, _, _ => raw
  | _, _, _ => []

end Unhook.Printer
