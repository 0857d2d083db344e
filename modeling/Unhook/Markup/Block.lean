import Unhook.Component.Basic

/-!
# Blocks

Markup that is written in a form of its own, a list or a choice, is kept as
text in a *block*, and a *placeholder* stands for it in the tree: a name that
holds the number of the block. In the end the holes that hold placeholders are
replaced by the texts of their blocks.

* `Block.place`: adds a block, and gives its placeholder;
* `Block.expand`: a text with its placeholders replaced;
* `Text.replaceMatches`: what it is done with.
-/

namespace Unhook

/-- Replaces what `find` recognizes at the beginning of a text, from left to
    right: it gives the length of what is recognized and the replacement.
    `skip` characters are still to be passed over. -/
def Text.replaceMatches (find : Text → Option (Nat × Text)) : (skip : Nat) → Text → Text
  | _, [] => []
  | skip + 1, _ :: t => replaceMatches find skip t
  | 0, c :: t =>
    match find (c :: t) with
    | some (n, new) => new ++ replaceMatches find (n - 1) t
    | none => c :: replaceMatches find 0 t

/-- A name in a hole. -/
def holeText (t : Text) : Text := "\x7b" ++ t ++ "\x7d"

namespace Block

/-- The name that stands for a block. -/
def placeholder (i : Nat) : Text := "__RAW_BLOCK_" ++ Text.ofNat i ++ "__"

/-- The number of the block that a name stands for. -/
def index? (name : Text) : Option Nat := Text.numberBetween? "__RAW_BLOCK_" "__" name

/-- The node that stands for a block. It has the stretch that its name has when
    it is written in parentheses. -/
def placeholderNode (i : Nat) : Node :=
  .reference (placeholder i) ⟨1, (placeholder i).length + 1⟩

/-- Adds a block, and gives the node that stands for it. -/
def place (b : Block) (blocks : List Block) : Node × List Block :=
  (placeholderNode blocks.length, blocks ++ [b])

/-- The placeholder in a hole that a text begins with: its length, and the text
    of its block. -/
def hole? (blocks : List Block) (t : Text) : Option (Nat × Text) := do
  let t ← Text.after? "\x7b__RAW_BLOCK_" t
  let digits := t.takeWhile Text.isDigit
  let _ ← Text.after? "__\x7d" (t.drop digits.length)
  let i ← Text.toNat? digits
  let b ← blocks[i]?
  return (digits.length + 16, b.text)

/-- Replaces every hole that holds a placeholder, once. -/
def expandOnce (blocks : List Block) (t : Text) : Text := Text.replaceMatches (hole? blocks) 0 t

/-- Replaces holes for the given number of rounds. -/
def expandRounds (blocks : List Block) : (rounds : Nat) → Text → Text
  | 0, t => t
  | n + 1, t => expandRounds blocks n (expandOnce blocks t)

/-- A text in which the holes that hold placeholders are replaced. Blocks nest
    no deeper than there are blocks. -/
def expand (blocks : List Block) (t : Text) : Text := expandRounds blocks (blocks.length + 1) t

end Block

namespace Node

/-- Whether an expression stands for a block. -/
def isPlaceholder (n : Node) : Bool := (n.identifier?.bind Block.index?).isSome

/-- Whether an expression is markup or stands for a block of it. -/
def isMarkupValue (n : Node) : Bool := n.isMarkup || n.isPlaceholder

end Node

end Unhook
