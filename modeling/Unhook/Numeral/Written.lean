import Unhook.Numeral.Basic

/-!
# How numerals are written

A numeral is written in the shortest of a few ways: as plain decimal digits,
in hexadecimal if it is whole, or with an exponent that takes the place of
zeros or of a point.

* `Numeral.plain`: the decimal form, positional from `1e-7` up to `1e21`;
* `Numeral.written`: the shortest form.
-/

namespace Unhook.Numeral

/-- The digits of a number in base 16. -/
def hexDigits (n : Nat) : Text := Nat.toDigits 16 n

/-- The digits of an integer, with its sign. -/
def signed (i : Int) : Text :=
  if i < 0 then "-" ++ Text.ofNat i.natAbs else Text.ofNat i.toNat

/-- The decimal form of `digits * 10 ^ place`. -/
def plain (digits : Nat) (place : Int) : Text :=
  let ds := Text.ofNat digits
  let k : Int := ds.length
  -- The point stands after `n` digits.
  let n := k + place
  if k ≤ n && n ≤ 21 then ds ++ List.replicate (n - k).toNat '0'
  else if 0 < n && n ≤ 21 then ds.take n.toNat ++ "." ++ ds.drop n.toNat
  else if -6 < n && n ≤ 0 then "0." ++ List.replicate (-n).toNat '0' ++ ds
  else
    let exponent := n - 1
    let mark := if 0 ≤ exponent then "e+" ++ signed exponent else "e" ++ signed exponent
    match ds with
    | [d] => d :: mark
    | d :: ds => d :: '.' :: ds ++ mark
    | [] => mark

/-- A text, or another one if that is shorter. -/
def shorter (t new : Text) : Text := if new.length < t.length then new else t

/-- The decimal form without a zero before the point or a sign before a
    positive exponent. -/
def bare (t : Text) : Text :=
  let t := if t.startsWith "0." then t.drop 1 else t
  match t.span (· != 'e') with
  | (a, 'e' :: '+' :: b) => a ++ "e" ++ b
  | _ => t

/-- Writes the zeros after a leading point as an exponent. -/
def shiftLeadingZeros (t : Text) : Text :=
  if t.startsWith ".0" then
    match t.drop 1 with
    | zeros =>
      let digits := zeros.dropWhile (· == '0')
      if digits.isEmpty then t
      else shorter t (digits ++ "e-" ++ Text.ofNat zeros.length)
  else t

/-- Writes the zeros at the end as an exponent. -/
def shiftTrailingZeros (t : Text) : Text :=
  let zeros := (t.reverse.takeWhile (· == '0')).length
  if zeros = 0 || zeros = t.length then t
  else shorter t (t.take (t.length - zeros) ++ "e" ++ Text.ofNat zeros)

/-- The integer that a signed text of digits reads as. -/
def signedValue : Text → Int
  | '-' :: t => -(Text.digitsValue 0 t : Int)
  | t => Text.digitsValue 0 t

/-- Takes the digits after a point into the exponent. -/
def shiftPoint (t : Text) : Text :=
  match t.span (· != '.') with
  | (whole, '.' :: rest) =>
    match rest.span (· != 'e') with
    | (frac, 'e' :: exponent) =>
      shorter t (whole ++ frac ++ "e" ++ signed (signedValue exponent - frac.length))
    | _ => t
  | _ => t

/-- The natural number that `mantissa * 2 ^ exponent` is, if it is one. -/
def whole? (mantissa : Nat) (exponent : Int) : Option Nat :=
  let (n, d) := scaled mantissa exponent
  if n % d = 0 then some (n / d) else none

/-- The text of a numeral. -/
def written : Numeral → Text
  | .infinity => "Infinity"
  | .finite mantissa exponent =>
    let (digits, place) := shortest mantissa exponent
    let decimal := bare (plain digits place)
    match whole? mantissa exponent with
    | some n =>
      if n < 1000 then Text.ofNat n
      else
        let hex := "0x" ++ hexDigits n
        if hex.length < decimal.length then shiftPoint hex
        else shiftPoint (shiftTrailingZeros decimal)
    | none => shiftPoint (shiftTrailingZeros (shiftLeadingZeros decimal))

end Unhook.Numeral
