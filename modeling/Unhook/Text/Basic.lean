/-!
# Texts

A *text* is a list of characters: what is read, what names are made of, and
what is written. A string literal stands for its characters, so that the rules
of the printer read as they print.

* `Text.lines`: the lines of a text, a line break being a line feed or a
  carriage return followed by one;
* `Text.splitLines`: the pieces between line feeds, as positions count them;
* `Text.replaceAll`: every occurrence of a text replaced, from left to right;
* `Text.ofNat` and `Text.toNat?`: decimal digits.
-/

namespace Unhook

/-- A text, as the list of its characters. -/
abbrev Text := List Char

/-- A string literal stands for its characters. -/
instance : Coe String Text := ⟨String.toList⟩

namespace Text

/-- Whether `t` is one of some strings. -/
def oneOf (t : Text) (strings : List String) : Bool := strings.any fun s => s.toList = t

/-- Whether `t` begins with `p`. -/
def startsWith (t p : Text) : Bool := p.isPrefixOf t

/-- What follows `p` in `t`, when `t` begins with `p`. -/
def after? : (p t : Text) → Option Text
  | [], t => some t
  | _ :: _, [] => none
  | c :: p, d :: t => if c = d then after? p t else none

/-- What precedes `s` in `t`, when `t` ends with `s`. -/
def before? (s t : Text) : Option Text := (after? s.reverse t.reverse).map List.reverse

/-- The texts `ts` in order, with `sep` between each two. -/
def join (sep : Text) : List Text → Text
  | [] => []
  | [t] => t
  | t :: ts => t ++ sep ++ join sep ts

/-- The characters of Unicode's `White_Space` property. -/
def isWhiteSpace (c : Char) : Bool :=
  let n := c.toNat
  (9 ≤ n && n ≤ 13) || n == 32 || n == 0x85 || n == 0xA0 || n == 0x1680 ||
    (0x2000 ≤ n && n ≤ 0x200A) || n == 0x2028 || n == 0x2029 || n == 0x202F ||
    n == 0x205F || n == 0x3000

/-- A text without the white space at its end. -/
def trimEnd (t : Text) : Text := (t.reverse.dropWhile isWhiteSpace).reverse

/-- The pieces of a text between its line feeds; there is always at least one. -/
def splitLines : Text → List Text
  | [] => [[]]
  | c :: t =>
    if c = '\n' then [] :: splitLines t
    else match splitLines t with
      | [] => [[c]]
      | l :: ls => (c :: l) :: ls

/-- A line without the carriage return that belongs to its line break. -/
def dropReturn (l : Text) : Text := (before? ['\r'] l).getD l

/-- The lines of a text: a line break ends a line, and what follows the last
    break is a line unless it is empty. -/
def lines (t : Text) : List Text :=
  let pieces := splitLines t
  pieces.dropLast.map dropReturn ++
    match pieces.getLast? with
    | some (c :: l) => [c :: l]
    | _ => []

/-- Replaces the occurrences of `pat` from left to right; `skip` characters of
    an occurrence are still to be passed over. -/
def replaceFrom (pat new : Text) : (skip : Nat) → Text → Text
  | _, [] => []
  | skip + 1, _ :: t => replaceFrom pat new skip t
  | 0, c :: t =>
    if startsWith (c :: t) pat then new ++ replaceFrom pat new (pat.length - 1) t
    else c :: replaceFrom pat new 0 t

/-- The text with every occurrence of the non-empty `pat` replaced by `new`. -/
def replaceAll (pat new t : Text) : Text := replaceFrom pat new 0 t

/-- The decimal digits of a number. -/
def ofNat (n : Nat) : Text := Nat.toDigits 10 n

/-- Whether a character is one of the ten decimal digits. -/
def isDigit (c : Char) : Bool := '0' ≤ c && c ≤ '9'

/-- The number that a list of decimal digits reads as, after the digits read
    so far gave `n`. -/
def digitsValue : (n : Nat) → Text → Nat
  | n, [] => n
  | n, c :: t => digitsValue (10 * n + (c.toNat - '0'.toNat)) t

/-- The number that a non-empty text of decimal digits reads as. -/
def toNat? (t : Text) : Option Nat :=
  if t.isEmpty || !t.all isDigit then none else some (digitsValue 0 t)

/-- What stands between `p` and `s` in `t`, when `t` begins with the one and then
    ends with the other. -/
def between? (p s t : Text) : Option Text := (after? p t).bind (before? s)

/-- The number that stands between `p` and `s` in `t`, when it fits into 64
    bits. -/
def numberBetween? (p s t : Text) : Option Nat :=
  ((between? p s t).bind toNat?).filter (· < Nat.pow 2 64)

/-- Whether a text comes no later than another in the order of code points. -/
def le : Text → Text → Bool
  | [], _ => true
  | _ :: _, [] => false
  | a :: s, b :: t => a.toNat < b.toNat || (a = b && le s t)

/-- The text padded with blanks on the left to the given width. -/
def padLeft (width : Nat) (t : Text) : Text := List.replicate (width - t.length) ' ' ++ t

end Text

/-- Appends a member to a list that has none of its kind yet. -/
def insertNew {α : Type} [DecidableEq α] (x : α) (xs : List α) : List α :=
  if x ∈ xs then xs else xs ++ [x]

end Unhook
