import Unhook.Text.Basic

/-!
# Positions

An offset into a text counts the bytes of its UTF-8 form; a *position* is a
line and a column, both from one, the column counting characters. An offset
past the end stands for the end, and one inside a character has no position of
its own: it stands for the end of the text too.

* `Text.position`: the position of an offset;
* `Text.slice?`: the characters between two offsets, if both are boundaries.
-/

namespace Unhook

/-- A stretch of a text, by byte offsets. -/
structure Span where
  start : Nat
  stop : Nat
  deriving DecidableEq, Repr

/-- The empty stretch at the beginning. -/
def Span.zero : Span := ⟨0, 0⟩

/-- A line and a column, both counted from one. -/
structure Position where
  line : Nat
  column : Nat
  deriving DecidableEq, Repr

namespace Text

/-- The number of bytes of a text in UTF-8. -/
def byteLength : Text → Nat
  | [] => 0
  | c :: t => c.utf8Size + byteLength t

/-- Splits a text after `n` bytes, if a character ends there. -/
def splitBytes : (n : Nat) → Text → Option (Text × Text)
  | 0, t => some ([], t)
  | _ + 1, [] => none
  | n + 1, c :: t =>
    if c.utf8Size ≤ n + 1 then
      (splitBytes (n + 1 - c.utf8Size) t).map fun (a, b) => (c :: a, b)
    else none

/-- The characters before an offset: all of them when the offset lies past the
    end or inside a character. -/
def before (source : Text) (offset : Nat) : Text :=
  match splitBytes offset source with
  | some (a, _) => a
  | none => source

/-- The position that is reached after reading a text. -/
def positionAfter (read : Text) : Position where
  line := read.count '\n' + 1
  column := (read.reverse.takeWhile (· != '\n')).length + 1

/-- The position of a byte offset in a text. -/
def position (source : Text) (offset : Nat) : Position := positionAfter (before source offset)

/-- The characters of a stretch, if it lies within the text and begins and ends
    between characters. -/
def slice? (source : Text) (span : Span) : Option Text := do
  guard (span.start ≤ span.stop)
  let (_, t) ← splitBytes span.start source
  let (s, _) ← splitBytes (span.stop - span.start) t
  return s

end Text

/-- The stretch of a text that is written in parentheses and by itself. -/
def Span.inParens (t : Text) : Span := ⟨1, t.byteLength + 1⟩

end Unhook
