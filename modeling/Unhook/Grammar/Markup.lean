import Unhook.Grammar.Expression

/-!
# Markup

Elements and fragments. Between tags, characters are text up to the next brace
or angle bracket, so the cursor moves by characters there: the rule for an
element ends *at* its last angle bracket, and what is read after it is decided
by where the element stands.
-/

namespace Unhook.Grammar

open Parse

variable (self : Rules)

/-- A name in a tag as it is written: an ordinary one, which goes on after a
    hyphen with hyphens as letters. -/
def tagWord : Parse Text := do
  let c ← get
  match c.token with
  | .word _ _ =>
    let more := if c.rest.head? = some '-' then
        c.rest.takeWhile fun d => Text.isNamePart d || d = '-'
      else []
    jump (c.stop + Text.byteLength more) (c.rest.drop more.length)
    return c.raw ++ more
  | _ => fail

/-- Whether a name in a tag refers to a variable: it has no hyphen and does not
    begin with a small letter. -/
def refers (n : Text) : Bool :=
  !n.contains '-' && n.head?.any fun c => !('a' ≤ c && c ≤ 'z')

/-- The node of a name in a tag that stands alone. -/
def plainTag (n : Text) : Kind :=
  if n = "this" then .tagThis else if refers n then .tagRef n else .tag n

/-- The name of an element. -/
def tagName : Parse Node := do
  let s ← start
  let n ← tagWord
  if ← eat ":" then
    let m ← tagWord
    node (.tagNamespaced n m) s []
  else if ← isPunct "." then
    let object ← node (if n = "this" then .tagThis else .tagRef n) s []
    loop object fun object => do
      if ← eat "." then
        let m ← tagWord
        check (!m.contains '-')
        return .more (← node (.tagMember m) s [object])
      return .done object
  else node (plainTag n) s []

/-- The text of the name of an element. -/
def tagText : Node → Text
  | .mk (.tag n) _ _ | .mk (.tagRef n) _ _ => n
  | .mk .tagThis _ _ => "this"
  | .mk (.tagNamespaced a b) _ _ => a ++ ":" ++ b
  | .mk (.tagMember n) _ [o] => tagText o ++ "." ++ n
  | _ => []

/-- An expression in braces; the cursor stays at the closing one. -/
def holeContent : Parse Node := do
  let e ← withIn (self .expression)
  check (← isPunct "\x7d")
  return e

/-- The value of an attribute. -/
def attributeValue : Parse Node := do
  let c ← get
  match c.here with
  | '{' :: _ =>
    advance
    let e ← holeContent self
    advance
    node .container c.start [e]
  | '<' :: _ =>
    let e ← self .element
    advanceChar
    return e
  | q :: t =>
    check (q = '"' || q = '\'')
    match t.span (· != q) with
    | (raw, _ :: rest) =>
      jump (c.start + 2 + Text.byteLength raw) rest
      node (.attributeString raw) c.start []
    | _ => fail
  | [] => fail

/-- An attribute. -/
def tagAttribute : Parse Node := do
  let s ← start
  if ← eat "\x7b" then
    expect "..."
    let e ← holeContent self
    advance
    return ← node .spreadAttribute s [e]
  let n ← tagWord
  let (space, n) ← if ← eat ":" then pure (some n, ← tagWord) else pure (none, n)
  let v ←
    if ← isChar '=' then
      advanceChar
      attributeValue self
    else pure Node.absent
  node (.attribute space n) s [v]

/-- Moves to a place among the characters, without reading a token there. -/
def place (offset : Nat) (t : Text) : Parse Unit := modify fun c =>
  { c with
    token := .bad, start := offset, stop := offset, here := t, rest := t, lastStop := offset }

/-- Moves past the last character of an element that stands among others. -/
def placeAfter : Parse Unit := do
  let c ← get
  match c.here with
  | d :: t => place (c.start + d.utf8Size) t
  | [] => fail

/-- A child in braces; the cursor stays at the closing one. -/
def holeChild (s : Nat) : Parse Node := do
  advanceChar
  let (kind, e) ←
    if ← isPunct "\x7d" then pure (Kind.container, ← node .emptyHole (s + 1) [])
    else if ← eat "..." then pure (.spreadChild, ← holeContent self)
    else pure (.container, ← holeContent self)
  return .mk kind ⟨s, (← start) + 1⟩ [e]

/-- The children of an element up to the tag that closes it; the cursor stays
    after the slash of that tag. Answers where the tag begins too. -/
def children : Parse (List Node × Nat) :=
  loop [] fun items => do
    let c ← get
    match c.here with
    | [] => fail
    | '{' :: _ =>
      let h ← holeChild self c.start
      placeAfter
      return .more (h :: items)
    | '<' :: _ =>
      advanceChar
      if ← isChar '/' then
        advanceChar
        return .done (items.reverse, c.start)
      place c.start c.here
      let e ← self .element
      placeAfter
      return .more (e :: items)
    | t =>
      let (raw, rest) := t.span fun d => d != '{' && d != '<'
      check (!raw.contains '>' && !raw.contains '}')
      let stop := c.start + Text.byteLength raw
      place stop rest
      return .more (.mk (.markupText raw) ⟨c.start, stop⟩ [] :: items)

/-- A node that begins at an offset and ends with the angle bracket that the
    cursor is at. -/
def tagNode (kind : Kind) (s : Nat) (parts : List Node) : Parse Node := do
  check (← isChar '>')
  return .mk kind ⟨s, (← start) + 1⟩ parts

/-- An element or a fragment; the cursor stays at its last angle bracket. -/
def elementRule : Parse Node := do
  let s ← start
  check (← isChar '<')
  advanceChar
  if ← isChar '>' then
    placeAfter
    let (items, _) ← children self
    return ← tagNode .fragment s items
  let n ← tagName
  let targs ← typeArguments? self
  let attrs ← loop [] fun items => do
    if (← isChar '/') || (← isChar '>') then return .done items.reverse
    return .more ((← tagAttribute self) :: items)
  if ← isChar '/' then
    advanceChar
    let opening ← tagNode .opening s (n :: targs :: attrs)
    return ← tagNode .element s [opening, Node.absent]
  let opening ← tagNode .opening s (n :: targs :: attrs)
  placeAfter
  let (items, closeStart) ← children self
  let m ← tagName
  check (tagText n = tagText m)
  let closing ← tagNode .closing closeStart [m]
  tagNode .element s (opening :: items ++ [closing])

end Unhook.Grammar
