import DelayInjection.Datum
import DelayInjection.Decimal.Written

-- The words of TOML that stand for single values: numbers, truth values, dates and times. A word
-- is a maximal run of characters that can occur in one.

namespace DelayInjection.Toml

def isWordChar (c : Char) : Bool := c.isAlphanum || ['_', '+', '-', '.', ':'].contains c

-- Digits with single underscores between them, which are left out.
def digitRun (isDigit : Char → Bool) : List Char → Option (List Char)
  | [] => none
  | [c] => if isDigit c then some [c] else none
  | c :: '_' :: rest => if isDigit c then (digitRun isDigit rest).map (c :: ·) else none
  | c :: rest => if isDigit c then (digitRun isDigit rest).map (c :: ·) else none

def based? (base : Nat) (digits : List Char) : Option Int :=
  let run? := digitRun (fun c => (Text.hexValue? c).any (· < base)) digits
  (run?.bind (Text.inBase? base)).map Int.ofNat

-- Digits without a needless zero in front.
def plainDigits? (text : List Char) : Option (List Char) :=
  match text with
  | '0' :: _ :: _ => none
  | _ => digitRun Char.isDigit text

def splitSign : List Char → Bool × List Char
  | '+' :: rest => (false, rest)
  | '-' :: rest => (true, rest)
  | text => (false, text)

-- Integers have to fit 64 bits.
def integer? (word : List Char) : Option Int :=
  let value? := match word with
    | '0' :: 'x' :: digits => based? 16 digits
    | '0' :: 'o' :: digits => based? 8 digits
    | '0' :: 'b' :: digits => based? 2 digits
    | _ =>
        let (negative, rest) := splitSign word
        ((plainDigits? rest).bind (Text.inBase? 10)).map fun n =>
          if negative then -Int.ofNat n else Int.ofNat n
  value?.bind fun n => (Text.int64? n).map fun _ => n

def special? (text : List Char) : Option Float :=
  if text = ['i', 'n', 'f'] then some (1 / 0)
  else if text = ['n', 'a', 'n'] then some (0 / 0)
  else none

def exponent? : List Char → Option Int
  | [] => some 0
  | _ :: text =>
      let (negative, rest) := splitSign text
      ((digitRun Char.isDigit rest).bind (Text.inBase? 10)).map fun n =>
        if negative then -Int.ofNat n else Int.ofNat n

def fraction? : List Char → Option (List Char)
  | [] => some []
  | _ :: digits => digitRun Char.isDigit digits

-- A float has a point or an exponent, and does not exceed the finite numbers.
def float? (word : List Char) : Option Float := do
  let (negative, text) := splitSign word
  let sign (x : Float) : Float := if negative then -x else x
  match special? text with
  | some x => return sign x
  | none =>
      let isExponent := fun c => c == 'e' || c == 'E'
      let number := text.takeWhile (!isExponent ·)
      let exponentText := text.dropWhile (!isExponent ·)
      let fractionText := number.dropWhile (· != '.')
      if exponentText.isEmpty && fractionText.isEmpty then none
      let whole ← plainDigits? (number.takeWhile (· != '.'))
      let fraction ← fraction? fractionText
      let exponent ← exponent? exponentText
      let mantissa ← Text.inBase? 10 (whole ++ fraction)
      let x := sign (Decimal.toFloat mantissa (exponent - fraction.length))
      if x.isInf && !negative then none else return x

def twoDigits? (a b : Char) : Option Nat :=
  if a.isDigit && b.isDigit then Text.inBase? 10 [a, b] else none

def daysIn (year month : Nat) : Nat :=
  if month = 2 then
    if year % 4 = 0 ∧ (year % 100 ≠ 0 ∨ year % 400 = 0) then 29 else 28
  else if month = 4 ∨ month = 6 ∨ month = 9 ∨ month = 11 then 30
  else 31

-- Whether ten characters at the start are a date; gives what follows it.
def afterDate? : List Char → Option (List Char)
  | y1 :: y2 :: y3 :: y4 :: '-' :: m1 :: m2 :: '-' :: d1 :: d2 :: rest => do
      let century ← twoDigits? y1 y2
      let year ← twoDigits? y3 y4
      let month ← twoDigits? m1 m2
      let day ← twoDigits? d1 d2
      if 1 ≤ month ∧ month ≤ 12 ∧ 1 ≤ day ∧ day ≤ daysIn (100 * century + year) month then
        some rest
      else none
  | _ => none

def afterSecondFraction? : List Char → Option (List Char)
  | '.' :: rest =>
      let digits := rest.takeWhile Char.isDigit
      if digits.isEmpty then none else some (rest.dropWhile Char.isDigit)
  | rest => some rest

def afterTime? : List Char → Option (List Char)
  | h1 :: h2 :: ':' :: m1 :: m2 :: ':' :: s1 :: s2 :: rest => do
      let hour ← twoDigits? h1 h2
      let minute ← twoDigits? m1 m2
      let second ← twoDigits? s1 s2
      if hour ≤ 23 ∧ minute ≤ 59 ∧ second ≤ 60 then afterSecondFraction? rest else none
  | _ => none

-- Nothing, `Z`, or a difference of hours and minutes.
def isOffset : List Char → Bool
  | [] => true
  | ['Z'] => true
  | ['z'] => true
  | [sign, h1, h2, ':', m1, m2] =>
      (sign == '+' || sign == '-') && (twoDigits? h1 h2).any (· ≤ 23) &&
        (twoDigits? m1 m2).any (· ≤ 59)
  | _ => false

def isTime (word : List Char) : Bool := afterTime? word == some []

def isTimeWithOffset (word : List Char) : Bool := (afterTime? word).any isOffset

def isMoment (word : List Char) : Bool :=
  match afterDate? word with
  | some [] => true
  | some (mark :: time) => (mark == 'T' || mark == 't') && isTimeWithOffset time
  | none => isTime word

-- A date or time is a record of its own kind, which no field of a configuration asks for.
def moment (word : List Char) : Datum :=
  .table [("$__toml_private_datetime", .text (String.ofList word))]

def scalar? (word : List Char) : Option Datum :=
  if word = ['t', 'r', 'u', 'e'] then some (.bool true)
  else if word = ['f', 'a', 'l', 's', 'e'] then some (.bool false)
  else if isMoment word then some (moment word)
  else match float? word with
    | some x => some (.float x)
    | none => (integer? word).map .integer

end DelayInjection.Toml
