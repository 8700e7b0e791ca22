import DelayInjection.Datum
import DelayInjection.Decimal.Written

-- JSON texts. Readers give what they read and the rest of the text, or nothing when the text is
-- malformed.

namespace DelayInjection.Json

def isSpace (c : Char) : Bool := c == ' ' || c == '\t' || c == '\n' || c == '\r'

def skipSpace (text : List Char) : List Char := text.dropWhile isSpace

-- The inside of a string, escapes included, and what follows the closing quote.
def inside? : List Char → Option (List Char × List Char)
  | [] => none
  | '"' :: rest => some ([], rest)
  | '\\' :: c :: rest => (inside? rest).map fun (raw, rest) => ('\\' :: c :: raw, rest)
  | c :: rest =>
      if c.toNat < 32 then none else (inside? rest).map fun (raw, rest) => (c :: raw, rest)

def escaped? : Char → Option Char
  | '"' => some '"'
  | '\\' => some '\\'
  | '/' => some '/'
  | 'b' => some '\x08'
  | 'f' => some '\x0c'
  | 'n' => some '\n'
  | 'r' => some '\r'
  | 't' => some '\t'
  | _ => none

-- The code points that the inside of a string stands for; numeric escapes give sixteen bits.
def codes? : List Char → Option (List Nat)
  | [] => some []
  | '\\' :: 'u' :: a :: b :: c :: d :: rest => do
      let code ← Text.inBase? 16 [a, b, c, d]
      return code :: (← codes? rest)
  | '\\' :: c :: rest => do
      let plain ← escaped? c
      return plain.toNat :: (← codes? rest)
  | c :: rest => do return c.toNat :: (← codes? rest)

-- Two surrogates in a row are one character, and a lone one is none.
def join? : List Nat → Option (List Char)
  | [] => some []
  | high :: low :: rest =>
      if 0xD800 ≤ high ∧ high < 0xDC00 ∧ 0xDC00 ≤ low ∧ low < 0xE000 then
        (join? rest).map (Char.ofNat (0x10000 + (high - 0xD800) * 0x400 + (low - 0xDC00)) :: ·)
      else if 0xD800 ≤ high ∧ high < 0xE000 then none
      else (join? (low :: rest)).map (Char.ofNat high :: ·)
  | [code] => if 0xD800 ≤ code ∧ code < 0xE000 then none else some [Char.ofNat code]

def string? (text : List Char) : Option (String × List Char) := do
  let (raw, rest) ← inside? text
  let chars ← join? (← codes? raw)
  return (String.ofList chars, rest)

def isNumberChar (c : Char) : Bool :=
  c.isDigit || c == '-' || c == '+' || c == '.' || c == 'e' || c == 'E'

def fraction? : List Char → Option (List Char × List Char)
  | '.' :: rest =>
      let digits := rest.takeWhile Char.isDigit
      if digits.isEmpty then none else some (digits, rest.dropWhile Char.isDigit)
  | text => some ([], text)

def exponent? : List Char → Option Int
  | [] => some 0
  | c :: rest => if c = 'e' ∨ c = 'E' then Text.integer? rest else none

-- Integers that fit 64 bits are exact. All other numbers are floats, and so is minus zero.
def number? (word : List Char) : Option Datum := do
  let negative := word.head? == some '-'
  let text := if negative then word.drop 1 else word
  let whole := text.takeWhile Char.isDigit
  let tail := text.dropWhile Char.isDigit
  let (fraction, rest) ← fraction? tail
  let exponent ← exponent? rest
  let mantissa ← Text.natural? (whole ++ fraction)
  if whole.isEmpty || (whole.head? == some '0' && 1 < whole.length) then none
  else
    let n : Int := if negative then -mantissa else mantissa
    let fits := (Text.int64? n).isSome || (Text.word64? n).isSome
    if tail.isEmpty && fits && !(negative && mantissa == 0) then return .integer n
    else
      let x := Decimal.toFloat mantissa (exponent - fraction.length)
      return .float (if negative then -x else x)

mutual

-- A value without space before it. Every second call takes a character, which bounds the fuel.
def value? (fuel : Nat) (text : List Char) : Option (Datum × List Char) :=
  match fuel with
  | 0 => none
  | fuel + 1 =>
      match text with
      | '"' :: rest => (string? rest).map fun (content, rest) => (.text content, rest)
      | '[' :: rest =>
          match skipSpace rest with
          | ']' :: rest => some (.list [], rest)
          | rest => items? fuel rest []
      | '\x7b' :: rest =>
          match skipSpace rest with
          | '\x7d' :: rest => some (.table [], rest)
          | rest => members? fuel rest []
      | 't' :: 'r' :: 'u' :: 'e' :: rest => some (.bool true, rest)
      | 'f' :: 'a' :: 'l' :: 's' :: 'e' :: rest => some (.bool false, rest)
      | 'n' :: 'u' :: 'l' :: 'l' :: rest => some (.null, rest)
      | _ =>
          (number? (text.takeWhile isNumberChar)).map fun datum =>
            (datum, text.dropWhile isNumberChar)

-- The items of an array up to its closing bracket, after those already read.
def items? (fuel : Nat) (text : List Char) (before : List Datum) :
    Option (Datum × List Char) :=
  match fuel with
  | 0 => none
  | fuel + 1 =>
      match value? fuel text with
      | none => none
      | some (item, rest) =>
          match skipSpace rest with
          | ',' :: rest => items? fuel (skipSpace rest) (item :: before)
          | ']' :: rest => some (.list (item :: before).reverse, rest)
          | _ => none

-- The members of an object up to its closing brace, after those already read.
def members? (fuel : Nat) (text : List Char) (before : List (String × Datum)) :
    Option (Datum × List Char) :=
  match fuel with
  | 0 => none
  | fuel + 1 =>
      match text with
      | '"' :: rest => do
          let (name, rest) ← string? rest
          match skipSpace rest with
          | ':' :: rest =>
              let (item, rest) ← value? fuel (skipSpace rest)
              match skipSpace rest with
              | ',' :: rest => members? fuel (skipSpace rest) ((name, item) :: before)
              | '\x7d' :: rest => some (.table ((name, item) :: before).reverse, rest)
              | _ => none
          | _ => none
      | _ => none

end

def read? (text : String) : Option Datum :=
  match value? (2 * text.length + 2) (skipSpace text.toList) with
  | some (datum, rest) => if (skipSpace rest).isEmpty then some datum else none
  | none => none

end DelayInjection.Json
