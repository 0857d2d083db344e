import Unhook.Text.Identifier

/-!
# Quoted strings

What stands between quotes is read as a list of code points: characters, and
halves of surrogate pairs that escapes can name (`Quoted.scan`). Two halves
that are written one right after the other with four digits each make one
character; a half that stays alone has none, and the string is then marked and
spelled with a replacement character before the digits of each half
(`Quoted.value`). Writing undoes this (`Quoted.escape`).
-/

namespace Unhook.Quoted

/-- The value of a hexadecimal digit. -/
def hexValue? (c : Char) : Option Nat :=
  if '0' ≤ c && c ≤ '9' then some (c.toNat - '0'.toNat)
  else if 'a' ≤ c && c ≤ 'f' then some (c.toNat - 'a'.toNat + 10)
  else if 'A' ≤ c && c ≤ 'F' then some (c.toNat - 'A'.toNat + 10)
  else none

/-- The number that some hexadecimal digits read as, after those before them
    read as `n`. -/
def hexNumber? : (n : Nat) → Text → Option Nat
  | n, [] => some n
  | n, c :: t => do hexNumber? (16 * n + (← hexValue? c)) t

/-- The code point of an escape after `u`, and how many characters it takes. -/
def codePoint? : Text → Option (Nat × Nat)
  | '{' :: t =>
    let digits := t.takeWhile (· != '}')
    match t.drop digits.length, hexNumber? 0 digits with
    | '}' :: _, some n =>
      if digits.isEmpty || 0x10FFFF < n then none else some (n, digits.length + 2)
    | _, _ => none
  | a :: b :: c :: d :: _ => (hexNumber? 0 [a, b, c, d]).map (·, 4)
  | _ => none

/-- Whether a code point is the first half of a pair. -/
def isHigh (n : Nat) : Bool := 0xD800 ≤ n && n ≤ 0xDBFF

/-- Whether a code point is the second half of a pair. -/
def isLow (n : Nat) : Bool := 0xDC00 ≤ n && n ≤ 0xDFFF

/-- The code point of an escape after `u` in a string, and how many characters it
    takes. The first half of a pair is read together with the second one, if
    that comes next; another escape that comes next must have four digits. -/
def pairedPoint? (t : Text) : Option (Nat × Nat) := do
  let (n, k) ← codePoint? t
  match isHigh n && t.head? != some '{', t.drop k with
  | true, '\\' :: 'u' :: r =>
    match r with
    | a :: b :: c :: d :: _ =>
      let m ← hexNumber? 0 [a, b, c, d]
      if isLow m then some (0x10000 + (n - 0xD800) * 0x400 + (m - 0xDC00), k + 6) else some (n, k)
    | _ => none
  | _, _ => some (n, k)

/-- Whether a character is an octal digit. -/
def isOctal (c : Char) : Bool := '0' ≤ c && c ≤ '7'

/-- The digits of an octal escape: up to three, and no more than a byte. -/
def octalDigits (t : Text) : Text :=
  let run := (t.take 3).takeWhile isOctal
  match run with
  | a :: _ => if '3' < a then run.take 2 else run
  | [] => []

/-- What an escape after a backslash stands for, and how many characters it
    takes. -/
def escape? : Text → Option (List Nat × Nat)
  | 'n' :: _ => some ([10], 1)
  | 'r' :: _ => some ([13], 1)
  | 't' :: _ => some ([9], 1)
  | 'b' :: _ => some ([8], 1)
  | 'v' :: _ => some ([11], 1)
  | 'f' :: _ => some ([12], 1)
  | 'x' :: a :: b :: _ => (hexNumber? 0 [a, b]).map fun n => ([n], 3)
  | 'u' :: t => (pairedPoint? t).map fun (n, k) => ([n], k + 1)
  | '\r' :: '\n' :: _ => some ([], 2)
  | c :: t =>
    if Text.isLineEnd c then some ([], 1)
    else if isOctal c then
      let digits := octalDigits (c :: t)
      some ([digits.foldl (fun n d => 8 * n + (d.toNat - '0'.toNat)) 0], digits.length)
    else if c = 'x' then none
    else some ([c.toNat], 1)
  | [] => none

/-- Reads up to the closing quote, first passing over `skip` characters of an
    escape: the text as it is written, its code points, and what follows. -/
def scan (quote : Char) : (skip : Nat) → Text → Option (Text × List Nat × Text)
  | _, [] => none
  | skip + 1, c :: t => (scan quote skip t).map fun (raw, us, rest) => (c :: raw, us, rest)
  | 0, c :: t =>
    if c = quote then some ([], [], t)
    else if c = '\\' then
      match escape? t with
      | none => none
      | some (vs, k) => (scan quote k t).map fun (raw, us, rest) => (c :: raw, vs ++ us, rest)
    else if c = '\n' || c = '\r' then none
    else (scan quote 0 t).map fun (raw, us, rest) => (c :: raw, c.toNat :: us, rest)

/-- The four hexadecimal digits of a half. -/
def fourDigits (n : Nat) : Text :=
  let ds := Nat.toDigits 16 n
  List.replicate (4 - ds.length) '0' ++ ds

/-- The character that marks a half. -/
def mark : Char := '\ufffd'

/-- The text of some code points, and whether halves had to be spelled out. -/
def value (points : List Nat) : Text × Bool :=
  if points.any fun n => isHigh n || isLow n then
    (points.flatMap fun n =>
      if isHigh n || isLow n || n = mark.toNat then mark :: fourDigits n else [Char.ofNat n], true)
  else (points.map Char.ofNat, false)

/-- Whether a text goes on with `/script` in any case of the letters. -/
def closesScript (t : Text) : Bool :=
  (t.take 7).map Char.toLower = "/script"

/-- A character between single quotes; `next` is what follows it. -/
def escapeChar (c : Char) (next : Text) : Text :=
  match c with
  | '\\' => "\\\\"
  | '\'' => "\\'"
  | '\n' => "\\n"
  | '\r' => "\\r"
  | '\x08' => "\\b"
  | '\x0b' => "\\v"
  | '\x0c' => "\\f"
  | '\x07' => "\\x07"
  | '\x1b' => "\\x1B"
  | '\x00' => if next.head?.any Text.isDigit then "\\x00" else "\\0"
  | '\u00a0' => "\\xA0"
  | '\u2028' => "\\u2028"
  | '\u2029' => "\\u2029"
  | '<' => if closesScript next then "<\\" else "<"
  | c => [c]

/-- What stands between single quotes for a text; with `halves`, those that are
    spelled out become escapes again. -/
def escape (halves : Bool) : (skip : Nat) → Text → Text
  | _, [] => []
  | skip + 1, _ :: t => escape halves skip t
  | 0, c :: t =>
    if halves && c = mark then
      let digits := t.take 4
      (if digits = "fffd" then [mark] else "\\u" ++ digits) ++ escape halves 4 t
    else escapeChar c t ++ escape halves 0 t

/-- A text between single quotes. -/
def single (value : Text) (halves : Bool) : Text := "'" ++ escape halves 0 value ++ "'"

/-- A raw text in which no script can be closed. -/
def keepScript : Text → Text
  | [] => []
  | c :: t => if c = '<' && closesScript t then '<' :: '\\' :: keepScript t else c :: keepScript t

end Unhook.Quoted
