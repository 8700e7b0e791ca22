import DelayInjection.Text.Numeral
import DelayInjection.Decimal.Shortest
-- Written forms of doubles, in messages and in JSON, and the double a decimal numeral denotes.

namespace DelayInjection.Decimal

-- How a style writes the digits of a finite number: where the decimal point may stand for
-- positional notation, and whether whole numbers end in `.0`.
structure Style where
  tie : Tie
  lowestPoint : Option Int
  highestPoint : Option Int
  wholeZero : Bool

-- Messages never use an exponent and write whole numbers bare.
def Style.message : Style := ⟨.up, none, none, false⟩

-- JSON uses an exponent for a point left of the fifth zero or right of the sixteenth digit.
def Style.json : Style := ⟨.even, some (-4), some 16, true⟩

def zeros (n : Nat) : List Char := List.replicate n '0'

def positional (wholeZero : Bool) (decimal : Digits) : List Char :=
  let digits := Text.digits decimal.digits
  let point := Int.ofNat digits.length + decimal.exponent
  if 0 ≤ decimal.exponent then
    digits ++ zeros decimal.exponent.toNat ++ if wholeZero then ['.', '0'] else []
  else if 0 < point then
    digits.take point.toNat ++ '.' :: digits.drop point.toNat
  else
    '0' :: '.' :: zeros (-point).toNat ++ digits

def scientific (decimal : Digits) : List Char :=
  let digits := Text.digits decimal.digits
  let exponent := Int.ofNat digits.length + decimal.exponent - 1
  let mantissa := match digits with
    | first :: second :: rest => first :: '.' :: second :: rest
    | short => short
  mantissa ++ 'e' :: Text.integer exponent

def Style.unsigned (style : Style) (decimal : Digits) : List Char :=
  let point := Int.ofNat (Text.digits decimal.digits).length + decimal.exponent
  let tooLow := style.lowestPoint.any (point < ·)
  let tooHigh := style.highestPoint.any (· < point)
  if decimal.digits ≠ 0 && (tooLow || tooHigh) then scientific decimal
  else positional style.wholeZero decimal

def isNegative (x : Float) : Bool := x.toBits >>> 63 == 1

def Style.finite (style : Style) (x : Float) : String :=
  let text := style.unsigned (shortest x style.tie)
  String.ofList (if isNegative x then '-' :: text else text)

def message (x : Float) : String :=
  if x.isNaN then "NaN"
  else if x.isInf then (if isNegative x then "-inf" else "inf")
  else Style.message.finite x

-- The text of a double in JSON, which has no numeral for infinities and NaN.
def json (x : Float) : String :=
  if x.isNaN || x.isInf then "null" else Style.json.finite x

-- The double nearest to mantissa times 10^exponent. Far outside the range of doubles the value
-- is zero or infinite whatever the digits are, and no power is computed.
def toFloat (mantissa : Nat) (exponent : Int) : Float :=
  if mantissa = 0 then 0
  else
    let top := Int.ofNat (Text.digits mantissa).length + exponent
    if top < -400 then 0
    else if 400 < top then 1 / 0
    else if exponent < 0 then Float.ofScientific mantissa true exponent.natAbs
    else Float.ofScientific mantissa false exponent.natAbs

end DelayInjection.Decimal
