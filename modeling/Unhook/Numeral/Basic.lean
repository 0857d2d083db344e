import Unhook.Syntax.Node

/-!
# Numerals

The value of a numeral is a binary floating-point number with 53 bits. A
numeral in the source is rounded to the nearest one, an exact half to the even
neighbour (`Numeral.ofDecimal`); a numeral is written with the fewest digits
that round back to it, and of these with the nearest ones (`Numeral.shortest`).
Both are exact computations on natural numbers.
-/

namespace Unhook.Numeral

/-- The least exponent of a number: its numbers are the multiples of this
    power of two. -/
def minExponent : Int := -1074

/-- The greatest exponent of a number with 53 bits. -/
def maxExponent : Int := 971

/-- A number times a power of two, as a numerator over a denominator. -/
def scaled (n : Nat) (e : Int) : Nat × Nat :=
  if 0 ≤ e then (n * Nat.pow 2 e.toNat, 1) else (n, Nat.pow 2 (-e).toNat)

/-- The quotient `n / d`, rounded to the nearest natural number, a half to the
    even one. -/
def roundDiv (n d : Nat) : Nat :=
  let q := n / d
  let r := n % d
  if 2 * r < d then q
  else if d < 2 * r then q + 1
  else if q % 2 = 0 then q else q + 1

/-- The exponent with which `n / d` has 53 bits, if it is not too small. -/
def exponentOf (n d : Nat) : Int :=
  let guess : Int := (n.log2 : Int) - (d.log2 : Int) - 52
  -- The guess is right, or too great by one.
  let fits : Bool :=
    if 0 ≤ guess then d * Nat.pow 2 (guess.toNat + 52) ≤ n
    else d * Nat.pow 2 52 ≤ n * Nat.pow 2 (-guess).toNat
  max minExponent (if fits then guess else guess - 1)

/-- The numeral nearest to `n / d`. -/
def ofRatio (n d : Nat) : Numeral :=
  if n = 0 then .finite 0 0
  else
    let e := exponentOf n d
    let m :=
      if 0 ≤ e then roundDiv n (d * Nat.pow 2 e.toNat)
      else roundDiv (n * Nat.pow 2 (-e).toNat) d
    let (m, e) := if m = Nat.pow 2 53 then (Nat.pow 2 52, e + 1) else (m, e)
    if maxExponent < e then .infinity else .finite m e

/-- The numeral nearest to a natural number. -/
def ofNat (n : Nat) : Numeral := ofRatio n 1

/-- The numeral nearest to `digits * 10 ^ exponent`. Beyond four hundred places
    on either side there is nothing but infinity and zero. -/
def ofDecimal (digits : Nat) (exponent : Int) : Numeral :=
  let places : Int := (Nat.toDigits 10 digits).length + exponent
  if digits = 0 then .finite 0 0
  else if 400 < places then .infinity
  else if places < -400 then .finite 0 0
  else if 0 ≤ exponent then ofRatio (digits * Nat.pow 10 exponent.toNat) 1
  else ofRatio digits (Nat.pow 10 (-exponent).toNat)

/-- Whether `digits * 10 ^ place` lies between `low` and `high` quarters of
    the unit `2 ^ exponent`; the ends count if `closed`. -/
def within (closed : Bool) (low high : Nat) (exponent : Int) (digits : Nat) (place : Int) : Bool :=
  let (a, b) := scaled 1 (exponent - 2)
  let (c, d) := if 0 ≤ place then (Nat.pow 10 place.toNat, 1) else (1, Nat.pow 10 (-place).toNat)
  -- digits * c / d against low * a / b
  let x := digits * c * b
  let l := low * a * d
  let h := high * a * d
  if closed then l ≤ x && x ≤ h else l < x && x < h

/-- Searches the grids of decimal numbers from coarse to fine for a point that
    rounds to `mantissa * 2 ^ exponent`; answers the digits and their place. -/
def searchGrid (mantissa : Nat) (exponent : Int) : (grids : Nat) → (place : Int) → Nat × Int
  | 0, place => (0, place)
  | grids + 1, place =>
    let (n, d) := scaled mantissa exponent
    let (n, d) :=
      if 0 ≤ place then (n, d * Nat.pow 10 place.toNat) else (n * Nat.pow 10 (-place).toNat, d)
    let below := n / d
    let low :=
      if mantissa = Nat.pow 2 52 && minExponent < exponent then 4 * mantissa - 1
      else 4 * mantissa - 2
    let ok := within (mantissa % 2 = 0) low (4 * mantissa + 2) exponent
    let downOk := 0 < below && ok below place
    let upOk := ok (below + 1) place
    if downOk && upOk then (roundDiv n d, place)
    else if downOk then (below, place)
    else if upOk then (below + 1, place)
    else searchGrid mantissa exponent grids (place - 1)

/-- The fewest decimal digits that round to `mantissa * 2 ^ exponent`, and the
    power of ten that they count. -/
def shortest (mantissa : Nat) (exponent : Int) : Nat × Int :=
  let (n, d) := scaled mantissa exponent
  -- A power of ten above the number.
  let top : Int := (Nat.toDigits 10 n).length - (Nat.toDigits 10 d).length + 1
  searchGrid mantissa exponent 20 top

end Unhook.Numeral
