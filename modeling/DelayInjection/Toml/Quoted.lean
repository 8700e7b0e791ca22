import DelayInjection.Toml.Scalar

-- Quoted texts of TOML. Each reader takes the text after the opening quotes and gives the
-- content and what follows the closing quotes.

namespace DelayInjection.Toml

-- Tabs and all characters from the blank on, but for the delete character.
def isTextChar (c : Char) : Bool := c == '\t' || (32 ≤ c.toNat && c.toNat != 127)

def withChar (c : Char) (result : Option (List Char × List Char)) :
    Option (List Char × List Char) :=
  result.map fun (content, rest) => (c :: content, rest)

def charOf? (digits : List Char) : Option Char :=
  (Text.inBase? 16 digits).bind fun n =>
    if n < 0xD800 ∨ (0xE000 ≤ n ∧ n < 0x110000) then some (Char.ofNat n) else none

def simpleEscape? : Char → Option Char
  | 'b' => some '\x08'
  | 't' => some '\t'
  | 'n' => some '\n'
  | 'f' => some '\x0c'
  | 'r' => some '\r'
  | '"' => some '"'
  | '\\' => some '\\'
  | _ => none

def literal : List Char → Option (List Char × List Char)
  | [] => none
  | '\'' :: rest => some ([], rest)
  | c :: rest => if isTextChar c then withChar c (literal rest) else none

def basic : List Char → Option (List Char × List Char)
  | [] => none
  | '"' :: rest => some ([], rest)
  | '\\' :: 'u' :: a :: b :: c :: d :: rest =>
      (charOf? [a, b, c, d]).bind fun x => withChar x (basic rest)
  | '\\' :: 'U' :: a :: b :: c :: d :: e :: f :: g :: h :: rest =>
      (charOf? [a, b, c, d, e, f, g, h]).bind fun x => withChar x (basic rest)
  | '\\' :: c :: rest => (simpleEscape? c).bind fun x => withChar x (basic rest)
  | c :: rest => if isTextChar c then withChar c (basic rest) else none

-- Up to two quotes may stand before the three that close a text of several lines.
def manyLiteral : List Char → Option (List Char × List Char)
  | [] => none
  | '\'' :: '\'' :: '\'' :: '\'' :: '\'' :: rest => some (['\'', '\''], rest)
  | '\'' :: '\'' :: '\'' :: '\'' :: rest => some (['\''], rest)
  | '\'' :: '\'' :: '\'' :: rest => some ([], rest)
  | '\r' :: '\n' :: rest => withChar '\n' (manyLiteral rest)
  | c :: rest => if isTextChar c || c == '\n' then withChar c (manyLiteral rest) else none

-- Where a text of several lines stands: in its content, or after a backslash that joins lines,
-- before or after the first line feed.
inductive Joint
  | content
  | lineEnd
  | margin
deriving DecidableEq

def manyBasic : Joint → List Char → Option (List Char × List Char)
  | _, [] => none
  | joint, '\r' :: '\n' :: rest =>
      if joint = .content then withChar '\n' (manyBasic .content rest) else manyBasic .margin rest
  | joint, '"' :: '"' :: '"' :: '"' :: '"' :: rest =>
      if joint = .lineEnd then none else some (['"', '"'], rest)
  | joint, '"' :: '"' :: '"' :: '"' :: rest =>
      if joint = .lineEnd then none else some (['"'], rest)
  | joint, '"' :: '"' :: '"' :: rest => if joint = .lineEnd then none else some ([], rest)
  | joint, '\\' :: 'u' :: a :: b :: c :: d :: rest =>
      if joint = .lineEnd then none
      else (charOf? [a, b, c, d]).bind fun x => withChar x (manyBasic .content rest)
  | joint, '\\' :: 'U' :: a :: b :: c :: d :: e :: f :: g :: h :: rest =>
      if joint = .lineEnd then none
      else (charOf? [a, b, c, d, e, f, g, h]).bind fun x => withChar x (manyBasic .content rest)
  | joint, '\\' :: c :: rest =>
      if joint = .lineEnd then none
      else match simpleEscape? c with
        | some x => withChar x (manyBasic .content rest)
        | none =>
            if c == ' ' || c == '\t' then manyBasic .lineEnd rest
            else if c == '\n' then manyBasic .margin rest
            else if c == '\r' then manyBasic .lineEnd ('\r' :: rest)
            else none
  | joint, c :: rest =>
      if joint ≠ .content && (c == ' ' || c == '\t') then manyBasic joint rest
      else if joint ≠ .content && c == '\n' then manyBasic .margin rest
      else if joint = .lineEnd then none
      else if isTextChar c || c == '\n' then withChar c (manyBasic .content rest)
      else none

-- A line feed right after the opening quotes of a text of several lines is left out.
def dropFirstBreak : List Char → List Char
  | '\n' :: rest => rest
  | '\r' :: '\n' :: rest => rest
  | text => text

-- A text of one line, or of several when those are allowed.
def quoted? (severalLines : Bool) : List Char → Option (List Char × List Char)
  | '"' :: '"' :: '"' :: rest =>
      if severalLines then manyBasic .content (dropFirstBreak rest) else some ([], '"' :: rest)
  | '\'' :: '\'' :: '\'' :: rest =>
      if severalLines then manyLiteral (dropFirstBreak rest) else some ([], '\'' :: rest)
  | '"' :: rest => basic rest
  | '\'' :: rest => literal rest
  | _ => none

end DelayInjection.Toml
