-- The shortest decimal that reads back as a given binary fraction. Among the decimals with the
-- fewest digits that round to the fraction, the nearest is taken.

namespace DelayInjection.Decimal

-- A decimal number: digits times a power of ten.
structure Digits where
  digits : Nat
  exponent : Int
deriving DecidableEq, Repr

-- Which of two equally near decimals is taken.
inductive Tie
  | even
  | up
deriving DecidableEq

-- The reals that round to a positive binary fraction, as quotients by one denominator. The ends
-- belong to the interval when a value half way between two fractions rounds to this one.
structure Interval where
  low : Nat
  value : Nat
  high : Nat
  denominator : Nat
  closed : Bool

-- The interval of mantissa times 2^exponent. Just below a power of two the fractions lie twice
-- as close as above it, so the lower half gap is smaller there.
def Interval.ofBinary (mantissa : Nat) (exponent : Int) (narrow : Bool) : Interval :=
  let scale := Nat.pow 2 (exponent - 2).toNat
  { low := (4 * mantissa - (if narrow then 1 else 2)) * scale
    value := 4 * mantissa * scale
    high := (4 * mantissa + 2) * scale
    denominator := Nat.pow 2 (2 - exponent).toNat
    closed := mantissa % 2 == 0 }

namespace Interval

-- Compares a decimal with a quotient: both sides multiplied out to whole numbers.
def sides (interval : Interval) (decimal : Digits) (numerator : Nat) : Nat × Nat :=
  (decimal.digits * Nat.pow 10 decimal.exponent.toNat * interval.denominator,
    numerator * Nat.pow 10 (-decimal.exponent).toNat)

def holds (interval : Interval) (decimal : Digits) : Bool :=
  let (a, low) := interval.sides decimal interval.low
  let (b, high) := interval.sides decimal interval.high
  if interval.closed then low ≤ a && b ≤ high else low < a && b < high

-- The exponent of the leading decimal digit of the value.
def magnitude (interval : Interval) : Int :=
  if interval.denominator ≤ interval.value then
    ((List.range 400).takeWhile fun n =>
      Nat.pow 10 (n + 1) * interval.denominator ≤ interval.value).length
  else
    -Int.ofNat (((List.range 400).takeWhile fun n =>
      interval.value * Nat.pow 10 n < interval.denominator).length)

def floor (interval : Interval) (exponent : Int) : Digits where
  digits := interval.value * Nat.pow 10 (-exponent).toNat /
    (interval.denominator * Nat.pow 10 exponent.toNat)
  exponent := exponent

-- The neighbour of the value on the grid of a power of ten that lies in the interval; of two the
-- nearer.
def onGrid? (interval : Interval) (tie : Tie) (exponent : Int) : Option Digits :=
  let below := interval.floor exponent
  let above : Digits := { below with digits := below.digits + 1 }
  match interval.holds below, interval.holds above with
  | false, false => none
  | true, false => some below
  | false, true => some above
  | true, true =>
      let middle : Digits := { below with digits := 2 * below.digits + 1 }
      let (centre, value) := interval.sides middle (2 * interval.value)
      if value < centre then some below
      else if centre < value then some above
      else match tie with
        | .up => some above
        | .even => if below.digits % 2 = 0 then some below else some above

-- Tries grids from coarse to fine; seventeen digits always suffice.
def shortest (interval : Interval) (tie : Tie) : Digits :=
  let top := interval.magnitude
  let found := (List.range 17).findSome? fun n => interval.onGrid? tie (top - Int.ofNat n)
  found.getD (interval.floor (top - 16))

end Interval

-- Moves zeros at the end of the digits into the exponent.
def Digits.stripZeros (fuel : Nat) (decimal : Digits) : Digits :=
  match fuel with
  | 0 => decimal
  | fuel + 1 =>
      if decimal.digits ≠ 0 ∧ decimal.digits % 10 = 0 then
        stripZeros fuel { digits := decimal.digits / 10, exponent := decimal.exponent + 1 }
      else decimal

-- The shortest decimal of the absolute value of a finite double.
def shortest (x : Float) (tie : Tie) : Digits :=
  let bits := x.toBits.toNat
  let fraction := bits % Nat.pow 2 52
  let biased := bits / Nat.pow 2 52 % 2048
  if biased = 0 then
    if fraction = 0 then ⟨0, 0⟩
    else ((Interval.ofBinary fraction (-1074) false).shortest tie).stripZeros 17
  else
    ((Interval.ofBinary (Nat.pow 2 52 + fraction) (Int.ofNat biased - 1075)
      (fraction == 0 && biased > 1)).shortest tie).stripZeros 17

end DelayInjection.Decimal
