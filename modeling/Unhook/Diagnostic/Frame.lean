import Unhook.Text.Position

/-!
# Code frames

A *frame* shows the line of a fault between its neighbours, each behind a
gutter with its number, and under it a row of carets with the message:

    1 | a;
  > 2 | for (;;) f();
      |          ^^^ here
    3 | b;

The carets begin under the column of the fault; there is at least one, and they
never run past the end of the line unless the fault is at its very end.
-/

namespace Unhook.Frame

/-- The row of a source line: a mark if it is the line of the fault, its
    number, and its text. -/
def sourceRow (width : Nat) (marked : Bool) (number : Nat) (line : Text) : Text :=
  (if marked then ">" else " ") ++ " " ++ Text.padLeft width (Text.ofNat number) ++ " | " ++ line
    ++ "\n"

/-- The row of carets under a source line. -/
def caretRow (width column carets : Nat) (message : Text) : Text :=
  "  " ++ Text.padLeft width [] ++ " | " ++ List.replicate (column - 1) ' '
    ++ List.replicate carets '^' ++ " " ++ message ++ "\n"

/-- How many characters of its first line a stretch covers; a stretch that is
    not one of the source covers one. -/
def reach (source : Text) (span : Span) : Nat :=
  match source.slice? span with
  | some t => (t.takeWhile (· != '\n')).length
  | none => 1

/-- The number of carets: at least one, and within the rest of the line. -/
def caretCount (source : Text) (span : Span) (line : Text) (column : Nat) : Nat :=
  max 1 (min (reach source span) (max (line.length - (column - 1)) 1))

/-- The rows of the lines numbered from `number` on; the fault is at `fault`. -/
def rows (source : Text) (span : Span) (message : Text) (width : Nat) (fault : Position) :
    (number : Nat) → List Text → List Text
  | _, [] => []
  | number, line :: rest =>
    let below :=
      if number = fault.line then
        [caretRow width fault.column (caretCount source span line fault.column) message]
      else []
    sourceRow width (number = fault.line) number line :: below
      ++ rows source span message width fault (number + 1) rest

/-- All the rows of a frame, each ended by a line feed. -/
def table (source : Text) (span : Span) (message : Text) : List Text :=
  let lines := source.splitLines
  let fault := source.position span.start
  let first := fault.line - 1 - 1
  let last := min fault.line (lines.length - 1)
  rows source span message (Text.ofNat (last + 1)).length fault (first + 1)
    ((lines.take (last + 1)).drop first)

/-- The frame of a stretch of a source, with a message under it. -/
def render (source : Text) (span : Span) (message : Text) : Text :=
  Text.trimEnd (table source span message).flatten

end Unhook.Frame
