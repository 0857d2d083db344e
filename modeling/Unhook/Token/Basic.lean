import Unhook.Numeral.Basic
import Unhook.Token.Quoted

/-!
# Tokens

The source is read token by token, and only as far as is needed: what a
character begins depends on where it stands. A *lexeme* is a token with its
place; it keeps the characters that it begins with, so that a reader who knows
better can read the same place in another way (a regular expression, a piece of
a template, a text between tags).

* `Lexeme.next`: the lexeme after blanks and comments;
* `Token.bad`: what is no token. It is refused only where it is met, since
  another reading of the place may still be right.
-/

namespace Unhook

/-- The tokens of a source. -/
inductive Token
  /-- A name or a keyword; `plain` if it is written without escapes. -/
  | word (name : Text) (plain : Bool)
  | privateName (name : Text)
  | punct (symbol : Text)
  | number (value : Numeral)
  | bigint (digits : Text)
  | string (value : Text) (halves : Bool) (raw : Text)
  /-- The quote that a template begins with. -/
  | backquote
  | eof
  | bad
  deriving DecidableEq

namespace Token

/-- What the comments before a token say about what begins there. -/
structure Notes where
  /-- A call that follows has no effect but its result. -/
  pure : Bool := false
  /-- Calls of the function that follows have none. -/
  inert : Bool := false
  deriving DecidableEq, Repr

namespace Notes

/-- Takes note of what a comment of the given text says: it begins, after
    blanks, with one of two words in underscores after `@` or `#`. -/
def read (notes : Notes) (block : Bool) (t : Text) : Notes :=
  let t := t.dropWhile fun c =>
    c = ' ' || c = '\t' || c = '\x0c' || (block && (c = '\n' || c = '\r'))
  match t with
  | c :: t =>
    if c = '@' || c = '#' then
      { pure := notes.pure || Text.startsWith t "__PURE__"
        inert := notes.inert || Text.startsWith t "__NO_SIDE_EFFECTS__" }
    else notes
  | [] => notes

end Notes

/-- The modes of what is passed over between tokens. -/
inductive Gap
  | code | lineComment | blockComment

/-- What is known about a place between tokens: its offset, whether a line ended
    on the way, and what the comments on the way say. -/
structure Passed where
  offset : Nat
  newline : Bool := false
  notes : Notes := {}

/-- Passes over a character. -/
def Passed.over (p : Passed) (c : Char) (newline : Bool) : Passed :=
  { p with offset := p.offset + c.utf8Size, newline := p.newline || newline }

/-- Passes over blanks and comments: what is known about the place where the
    next token begins, and the characters from there. -/
def skipGap : Gap → Passed → Text → Option (Passed × Text)
  | .code, p, '/' :: '/' :: t =>
    skipGap .lineComment { p with offset := p.offset + 2, notes := p.notes.read false t } t
  | .code, p, '/' :: '*' :: t =>
    skipGap .blockComment { p with offset := p.offset + 2, notes := p.notes.read true t } t
  | .code, p, c :: t =>
    if Text.isLineEnd c then skipGap .code (p.over c true) t
    else if Text.isBlank c then skipGap .code (p.over c false) t
    else some (p, c :: t)
  | .lineComment, p, c :: t =>
    if Text.isLineEnd c then skipGap .code (p.over c true) t
    else skipGap .lineComment (p.over c false) t
  | .blockComment, p, '*' :: '/' :: t => skipGap .code { p with offset := p.offset + 2 } t
  | .blockComment, p, c :: t => skipGap .blockComment (p.over c (Text.isLineEnd c)) t
  | .blockComment, _, [] => none
  | _, p, [] => some (p, [])

/-- The symbols of three characters and more. -/
def longSymbols : List Text :=
  [">>>=", "...", "===", "!==", "**=", "<<=", ">>=", ">>>", "&&=", "||=", "??="]

/-- The symbols of two characters. -/
def pairSymbols : List Text :=
  ["=>", "==", "!=", "<=", ">=", "&&", "||", "??", "?.", "++", "--", "+=", "-=", "*=", "/=",
    "%=", "&=", "|=", "^=", "<<", ">>", "**"]

/-- The symbols of one character. -/
def singleSymbols : Text := "\x7b\x7d()[];,<>+-*/%&|^!~?:=.@"

/-- The symbols that tokens are made of, longer ones first. -/
def symbols : List Text := longSymbols ++ pairSymbols ++ singleSymbols.map fun c => [c]

/-- The symbol that a text begins with. A question mark before a fraction is
    one by itself. -/
def symbol? : Text → Option Text
  | '?' :: '.' :: c :: t => if Text.isDigit c then some "?" else
      symbols.find? (Text.startsWith ('?' :: '.' :: c :: t))
  | t => symbols.find? (Text.startsWith t)

/-- Reads the rest of a name, first passing over `skip` characters of an
    escape: the name, the text as it is written, and what follows. -/
def scanName : (skip : Nat) → Text → Option (Text × Text × Text)
  | _, [] => some ([], [], [])
  | skip + 1, c :: t => (scanName skip t).map fun (name, raw, rest) => (name, c :: raw, rest)
  | 0, c :: t =>
    if Text.isNamePart c then
      (scanName 0 t).map fun (name, raw, rest) => (c :: name, c :: raw, rest)
    else if c = '\\' then
      match t with
      | 'u' :: u =>
        match Quoted.codePoint? u with
        | some (n, k) =>
          if Text.isNamePart (Char.ofNat n) then
            (scanName (k + 1) t).map fun (name, raw, rest) => (Char.ofNat n :: name, c :: raw, rest)
          else none
        | none => none
      | _ => none
    else some ([], [], c :: t)

/-- Whether separators stand between digits only. -/
def separatorsOk : (afterDigit : Bool) → Text → Bool
  | afterDigit, [] => afterDigit
  | afterDigit, c :: t =>
    if c = '_' then afterDigit && separatorsOk false t else separatorsOk true t

/-- Reads a run of digits with separators: the digits, the text as it is
    written, and what follows. There may be none. -/
def scanDigits (isDigit : Char → Bool) (t : Text) : Option (Text × Text × Text) :=
  let (raw, rest) := t.span fun c => isDigit c || c = '_'
  if raw.isEmpty || separatorsOk false raw then some (raw.filter (· != '_'), raw, rest) else none

/-- The value of some digits in a base. -/
def baseValue (base : Nat) (digits : Text) : Nat :=
  digits.foldl (fun n c => base * n + (Quoted.hexValue? c).getD 0) 0

/-- What a number must not be followed by. -/
def runsOn : Text → Bool
  | c :: _ => Text.isNamePart c || c = '\\'
  | [] => false

/-- A number in a base other than ten, after its mark. -/
def scanBased (base : Nat) (isDigit : Char → Bool) (mark t : Text) :
    Option (Token × Text × Text) := do
  let (digits, raw, rest) ← scanDigits isDigit t
  guard (!digits.isEmpty)
  match rest with
  | 'n' :: r =>
    guard (!runsOn r)
    return (.bigint (Text.ofNat (baseValue base digits)), mark ++ raw ++ "n", r)
  | _ =>
    guard (!runsOn rest)
    return (.number (Numeral.ofNat (baseValue base digits)), mark ++ raw, rest)

/-- The exponent of a number, if there is one: its value, the text as it is
    written, and what follows. -/
def scanExponent : Text → Option (Int × Text × Text)
  | e :: t =>
    if e = 'e' || e = 'E' then do
      let (sign, t, factor) := match t with
        | '+' :: u => ([e, '+'], u, (1 : Int))
        | '-' :: u => ([e, '-'], u, (-1 : Int))
        | u => ([e], u, (1 : Int))
      let (digits, raw, rest) ← scanDigits Text.isDigit t
      guard (!digits.isEmpty)
      return (factor * Text.digitsValue 0 digits, sign ++ raw, rest)
    else some (0, [], e :: t)
  | [] => some (0, [], [])

/-- A number in base ten: the token, the text as it is written, and what
    follows. -/
def scanDecimal (t : Text) : Option (Token × Text × Text) := do
  let (whole, rawWhole, t) ← scanDigits Text.isDigit t
  match t with
  | 'n' :: r =>
    guard (!whole.isEmpty && !runsOn r)
    return (.bigint (Text.ofNat (Text.digitsValue 0 whole)), rawWhole ++ "n", r)
  | _ =>
    let (point, t) := match t with
      | '.' :: u => (['.'], u)
      | u => ([], u)
    let (frac, rawFrac, t) ← if point.isEmpty then some ([], [], t) else scanDigits Text.isDigit t
    guard (!(whole.isEmpty && frac.isEmpty))
    let (exponent, rawExponent, t) ← scanExponent t
    guard (!runsOn t)
    let value := Numeral.ofDecimal (Text.digitsValue 0 (whole ++ frac)) (exponent - frac.length)
    return (.number value, rawWhole ++ point ++ rawFrac ++ rawExponent, t)

/-- A number: the token, the text as it is written, and what follows. Digits
    after a leading zero are octal if they can be, and have no separators. -/
def scanNumber : Text → Option (Token × Text × Text)
  | '0' :: m :: t =>
    if m = 'x' || m = 'X' then scanBased 16 (fun c => (Quoted.hexValue? c).isSome) ['0', m] t
    else if m = 'o' || m = 'O' then scanBased 8 Quoted.isOctal ['0', m] t
    else if m = 'b' || m = 'B' then scanBased 2 (fun c => c = '0' || c = '1') ['0', m] t
    else if Text.isDigit m then
      let (raw, rest) := (m :: t).span Text.isDigit
      if raw.all Quoted.isOctal then
        if runsOn rest then none
        else some (.number (Numeral.ofNat (baseValue 8 raw)), '0' :: raw, rest)
      else if rest.head?.any (fun c => c = '_' || c = 'n' || c = 'E') then none
      else scanDecimal ('0' :: m :: t)
    else if m = '_' then none
    else scanDecimal ('0' :: m :: t)
  | t => scanDecimal t

/-- The token that a text begins with, the text as it is written, and what
    follows. -/
def scan : Text → Token × Text × Text
  | [] => (.eof, [], [])
  | c :: t =>
    if Text.isNameStart c || c = '\\' then
      match scanName 0 (c :: t) with
      | some (name, raw, rest) =>
        if name.head?.any Text.isNameStart then (.word name (name = raw), raw, rest)
        else (.bad, [c], t)
      | none => (.bad, [c], t)
    else if Text.isDigit c || (c = '.' && t.head?.any Text.isDigit) then
      match scanNumber (c :: t) with
      | some r => r
      | none => (.bad, [c], t)
    else if c = '"' || c = '\'' then
      match Quoted.scan c 0 t with
      | some (raw, points, rest) =>
        let (value, halves) := Quoted.value points
        (.string value halves raw, c :: raw ++ [c], rest)
      | none => (.bad, [c], t)
    else if c = '`' then (.backquote, [c], t)
    else if c = '#' then
      match t with
      | d :: _ =>
        if Text.isNameStart d || d = '\\' then
          match scanName 0 t with
          | some (name, raw, rest) =>
            if name.head?.any Text.isNameStart then (.privateName name, c :: raw, rest)
            else (.bad, [c], t)
          | none => (.bad, [c], t)
        else (.bad, [c], t)
      | [] => (.bad, [c], t)
    else
      match symbol? (c :: t) with
      | some s => (.punct s, s, (c :: t).drop s.length)
      | none => (.bad, [c], t)

end Token

/-- A token with its place. -/
structure Lexeme where
  token : Token
  start : Nat
  stop : Nat
  /-- Whether a line ended before the token. -/
  newline : Bool
  /-- What the comments before the token say. -/
  notes : Token.Notes
  /-- The characters from the token on. -/
  here : Text
  /-- The characters after the token. -/
  rest : Text

namespace Lexeme

/-- The lexeme that is read from an offset on. -/
def next (offset : Nat) (t : Text) : Lexeme :=
  match Token.skipGap .code { offset } t with
  | none => ⟨.bad, offset, offset, false, {}, t, t⟩
  | some (p, here) =>
    let (token, raw, rest) := Token.scan here
    ⟨token, p.offset, p.offset + Text.byteLength raw, p.newline, p.notes, here, rest⟩

/-- The lexeme after another. -/
def after (l : Lexeme) : Lexeme := next l.stop l.rest

/-- The text of a token as it is written. -/
def raw (l : Lexeme) : Text := Text.before l.here (l.stop - l.start)

end Lexeme

end Unhook
