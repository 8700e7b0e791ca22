import DelayInjection.Toml.Item
import DelayInjection.Toml.Quoted

-- TOML documents. Readers give what they read and the rest of the text, or nothing when the text
-- is malformed. Readers that repeat or nest get fuel by the length of the text: a repetition
-- takes a character at least, and so does every second call of the readers that nest.

namespace DelayInjection.Toml

def isGap (c : Char) : Bool := c == ' ' || c == '\t'

def skipGaps (text : List Char) : List Char := text.dropWhile isGap

def skipComment : List Char → List Char
  | '#' :: rest => rest.dropWhile isTextChar
  | text => text

def lineBreak? : List Char → Option (List Char)
  | '\n' :: rest => some rest
  | '\r' :: '\n' :: rest => some rest
  | _ => none

-- The end of a line after a statement: gaps, a comment, and a line break or the end of the text.
def lineEnd? (text : List Char) : Option (List Char) :=
  match skipComment (skipGaps text) with
  | [] => some []
  | rest => lineBreak? rest

-- Gaps, comments and line breaks, as they may stand between the values of an array.
def skipLines : Nat → List Char → Option (List Char)
  | 0, _ => none
  | fuel + 1, text =>
      match skipGaps text with
      | '#' :: rest => (lineBreak? (rest.dropWhile isTextChar)).bind (skipLines fuel)
      | rest =>
          match lineBreak? rest with
          | some rest => skipLines fuel rest
          | none => some rest

def isBareChar (c : Char) : Bool := c.isAlphanum || c == '_' || c == '-'

def simpleKey? (text : List Char) : Option (String × List Char) :=
  match text with
  | [] => none
  | c :: _ =>
      if c == '"' || c == '\'' then
        (quoted? false text).map fun (content, rest) => (String.ofList content, rest)
      else
        let key := text.takeWhile isBareChar
        if key.isEmpty then none else some (String.ofList key, text.dropWhile isBareChar)

def keyParts : Nat → List Char → Option (List String × List Char)
  | 0, _ => none
  | fuel + 1, text => do
      let (part, rest) ← simpleKey? (skipGaps text)
      match skipGaps rest with
      | '.' :: rest =>
          let (parts, rest) ← keyParts fuel rest
          return (part :: parts, rest)
      | rest => return ([part], rest)

-- Values nest, and keys have parts, fewer than this many times.
def depthLimit : Nat := 80

-- A key as the parts before its last one, and that part.
def key? (text : List Char) : Option ((List String × String) × List Char) := do
  let (parts, rest) ← keyParts (text.length + 1) text
  if depthLimit ≤ parts.length then none
  else
    let name ← parts.getLast?
    return ((parts.dropLast, name), rest)

-- A value that is one word. A date may be followed by a blank and a time.
def word? (text : List Char) : Option (Datum × List Char) :=
  let word := text.takeWhile isWordChar
  let rest := text.dropWhile isWordChar
  match rest with
  | ' ' :: next :: _ =>
      if afterDate? word == some [] && next.isDigit then
        let after := rest.drop 1
        let time := after.takeWhile isWordChar
        if isTimeWithOffset time then
          some (moment (word ++ ' ' :: time), after.dropWhile isWordChar)
        else none
      else (scalar? word).map (·, rest)
  | _ => (scalar? word).map (·, rest)

mutual

-- A value, below the given number of enclosing arrays and inline tables.
def value? (fuel depth : Nat) (text : List Char) : Option (Datum × List Char) :=
  match fuel with
  | 0 => none
  | fuel + 1 =>
      match text with
      | '[' :: rest => if depth + 1 < depthLimit then items? fuel (depth + 1) rest [] else none
      | '\x7b' :: rest =>
          if depth + 1 < depthLimit then
            match skipGaps rest with
            | '\x7d' :: rest => some (.table [], rest)
            | rest => pairs? fuel (depth + 1) rest []
          else none
      | c :: _ =>
          if c == '"' || c == '\'' then
            (quoted? true text).map fun (content, rest) => (.text (String.ofList content), rest)
          else word? text
      | [] => none

-- The values of an array up to its closing bracket, after those already read.
def items? (fuel depth : Nat) (text : List Char) (before : List Datum) :
    Option (Datum × List Char) :=
  match fuel with
  | 0 => none
  | fuel + 1 =>
      match skipLines (text.length + 1) text with
      | none => none
      | some (']' :: rest) => some (.list before.reverse, rest)
      | some rest =>
          match value? fuel depth rest with
          | none => none
          | some (item, rest) =>
              match skipLines (rest.length + 1) rest with
              | some (',' :: rest) => items? fuel depth rest (item :: before)
              | some (']' :: rest) => some (.list (item :: before).reverse, rest)
              | _ => none

-- The pairs of an inline table up to its closing brace. A comma has to be followed by a pair.
def pairs? (fuel depth : Nat) (text : List Char) (members : Members) :
    Option (Datum × List Char) :=
  match fuel with
  | 0 => none
  | fuel + 1 =>
      match key? text with
      | some ((path, name), '=' :: rest) =>
          match value? fuel depth (skipGaps rest) with
          | none => none
          | some (datum, rest) =>
              match members.addValue path name datum .explicit with
              | none => none
              | some members =>
                  match skipGaps rest with
                  | ',' :: rest => pairs? fuel depth rest members
                  | '\x7d' :: rest => some ((Item.table .explicit members).toDatum, rest)
                  | _ => none
      | _ => none

end

-- What has been read of a document, and the path of the table that its pairs go into.
structure Progress where
  members : Members := []
  path : List String := []

def Progress.addPair (progress : Progress) (path : List String) (name : String) (datum : Datum) :
    Option Progress :=
  (Members.at .passed (Members.addValue path name datum) progress.path .explicit
    progress.members).map fun members => { progress with members := members }

def header? (progress : Progress) (text : List Char) : Option (Progress × List Char) :=
  match text with
  | '[' :: rest =>
      match key? rest with
      | some ((path, name), ']' :: ']' :: rest) =>
          (progress.members.openElement path name).map fun members =>
            ({ members := members, path := path ++ [name] }, rest)
      | _ => none
  | rest =>
      match key? rest with
      | some ((path, name), ']' :: rest) =>
          (progress.members.openTable path name).map fun members =>
            ({ members := members, path := path ++ [name] }, rest)
      | _ => none

def pair? (progress : Progress) (text : List Char) : Option (Progress × List Char) :=
  match key? text with
  | some ((path, name), '=' :: rest) =>
      match value? (2 * rest.length + 2) 0 (skipGaps rest) with
      | none => none
      | some (datum, rest) => (progress.addPair path name datum).map (·, rest)
  | _ => none

def statement? (progress : Progress) (text : List Char) : Option (Progress × List Char) :=
  match text with
  | '#' :: _ => some (progress, text)
  | '\n' :: _ => some (progress, text)
  | '\r' :: _ => some (progress, text)
  | '[' :: rest => header? progress rest
  | _ => pair? progress text

def statements? : Nat → Progress → List Char → Option Members
  | 0, _, _ => none
  | fuel + 1, progress, text =>
      match skipGaps text with
      | [] => some progress.members
      | text =>
          match statement? progress text with
          | none => none
          | some (progress, rest) => (lineEnd? rest).bind (statements? fuel progress)

-- The table that a document describes. A byte order mark may stand in front.
def document? (text : String) : Option Datum :=
  let text := match text.toList with
    | '\uFEFF' :: rest => rest
    | text => text
  (statements? (text.length + 1) {} text).map fun members =>
    (Item.table .explicit members).toDatum

end DelayInjection.Toml
