import Unhook.Markup.Choice

/-!
# Lists

A call `collection.map(callback)` whose callback renders a piece of markup for
each item becomes a block over the collection. The key of the markup is moved
to the head of the block, and the choices within the markup are blocks before
it is written.

* `Each.root?`: the markup that a callback renders;
* `Each.takeKey`: markup without its key;
* `Each.block?`: the block of a list;
* `Node.lowerLists`: a tree in which lists are placeholders.
-/

namespace Unhook

namespace Each

/-- The markup that a callback renders: its concise body, or what its only
    statement returns. -/
def root? (callback : Node) : Option Node :=
  match callback.body.kind with
  | .functionBody =>
    match callback.body.statements with
    | [.mk .returnStatement _ [e]] => if e.isMarkup then some e else none
    | _ => none
  | _ => if callback.body.isMarkup then some callback.body else none

/-- Whether a node is the attribute for a key. -/
def isKey (n : Node) : Bool := n.kind = .attribute none "key"

/-- The key that the value of an attribute is written as. -/
def keyText? : Node → Option Text
  | .mk .container _ [e] => if e.kind = .emptyHole then none else some e.printExpression
  | .mk (.attributeString raw) _ _ => some ("\"" ++ raw ++ "\"")
  | _ => none

/-- Markup without its key, and the key. -/
def takeKey : Node → Node × Option Text
  | .mk .element s (.mk .opening t (name :: types :: attributes) :: rest) =>
    let key := (attributes.find? isKey).bind fun a => a.parts.head?.bind keyText?
    (.mk .element s (.mk .opening t (name :: types :: attributes.eraseP isKey) :: rest), key)
  | n => (n, none)

mutual

/-- The markup variables that are shown by holes of a tree, outside attributes,
    after those shown before. -/
def shownVariables (names : List Text) : Node → List Text → List Text
  | .mk k _ ps, refs =>
    match k, ps with
    | .attribute _ _, _ => refs
    | .container, [e] =>
      match e.identifier? with
      | some x => if names.contains x then insertNew x refs else refs
      | none => shownVariables names e refs
    | _, ps => shownVariablesList names ps refs

/-- The markup variables that are shown by holes of some trees. -/
def shownVariablesList (names : List Text) : List Node → List Text → List Text
  | [], refs => refs
  | n :: ns, refs => shownVariablesList names ns (shownVariables names n refs)

end

/-- The text of a list. -/
def text (collection item : Text) (key : Option Text) (body : Text) : Text :=
  let head := "\x7b#each " ++ collection ++ " as " ++ item
  let head := match key with
    | some k => head ++ " (" ++ k ++ ")\x7d"
    | none => head ++ "\x7d"
  head ++ body ++ "\x7b/each\x7d"

/-- The block of a call that renders a list, after the blocks within it. -/
def block? (names : List Text) (call : Node) (bs : List Block) : Option (Block × List Block) := do
  let (collection, callback) ← call.mapCall?
  let item ← callback.onlyPattern?
  let root ← root? callback
  let (root, key) := takeKey root
  let (root, bs) := root.lowerChoices names false bs
  let b : Block := {
    text := text collection.printExpression item.printPattern key root.printExpression
    references := shownVariables names root [] }
  return (b, bs)

end Each

namespace Node

mutual

/-- A tree in which calls in expression position that render lists are
    placeholders; inner lists come first. -/
def lowerLists (names : List Text) : Node → List Block → Node × List Block
  | mk k s ps, bs =>
    let (ps, bs) := lowerListsList names ps bs
    match k with
    | .call ⟨o, false⟩ pure =>
      match Each.block? names (mk (.call ⟨o, false⟩ pure) s ps) bs with
      | some (b, bs) => b.place bs
      | none => (mk (.call ⟨o, false⟩ pure) s ps, bs)
    | k => (mk k s ps, bs)

/-- Trees in which calls that render lists are placeholders. -/
def lowerListsList (names : List Text) : List Node → List Block → List Node × List Block
  | [], bs => ([], bs)
  | n :: ns, bs =>
    let (n, bs) := lowerLists names n bs
    let (ns, bs) := lowerListsList names ns bs
    (n :: ns, bs)

end

end Node

end Unhook
