import DelayInjection.Datum
import DelayInjection.Decimal.Written

namespace DelayInjection.Json

def hexDigit (n : Nat) : Char := if n < 10 then Text.digitChar n else Char.ofNat (87 + n)

-- Quotes, backslashes and control characters are escaped, and nothing else.
def escape (c : Char) : List Char :=
  if c = '"' then ['\\', '"']
  else if c = '\\' then ['\\', '\\']
  else if c = '\n' then ['\\', 'n']
  else if c = '\r' then ['\\', 'r']
  else if c = '\t' then ['\\', 't']
  else if c = '\x08' then ['\\', 'b']
  else if c = '\x0c' then ['\\', 'f']
  else if c.toNat < 32 then
    ['\\', 'u', '0', '0', hexDigit (c.toNat / 16), hexDigit (c.toNat % 16)]
  else [c]

def quoted (text : String) : String := String.ofList ('"' :: text.toList.flatMap escape ++ ['"'])

-- How the parts of arrays and objects are set off: what goes before each of them at a depth,
-- what before the closing bracket, and what after the name of a member.
structure Layout where
  before : Nat → String
  colon : String

def Layout.compact : Layout := ⟨fun _ => "", ":"⟩

def Layout.pretty : Layout :=
  ⟨fun depth => "\n" ++ String.ofList (List.replicate (2 * depth) ' '), ": "⟩

-- Parts between brackets; nothing stands between the brackets of an empty list.
def Layout.enclose (layout : Layout) (opening closing : String) (depth : Nat)
    (parts : List String) : String :=
  if parts.isEmpty then opening ++ closing
  else
    opening ++ String.intercalate "," (parts.map (layout.before (depth + 1) ++ ·)) ++
      layout.before depth ++ closing

mutual

def render (layout : Layout) (depth : Nat) : Datum → String
  | .null => "null"
  | .bool value => if value then "true" else "false"
  | .integer value => Text.ofInt value
  | .float value => Decimal.json value
  | .text value => quoted value
  | .list items => layout.enclose "[" "]" depth (renderItems layout (depth + 1) items)
  | .table members => layout.enclose "\x7b" "\x7d" depth (renderMembers layout (depth + 1) members)

def renderItems (layout : Layout) (depth : Nat) : List Datum → List String
  | [] => []
  | item :: rest => render layout depth item :: renderItems layout depth rest

def renderMembers (layout : Layout) (depth : Nat) : List (String × Datum) → List String
  | [] => []
  | (name, value) :: rest =>
      (quoted name ++ layout.colon ++ render layout depth value) :: renderMembers layout depth rest

end

def compact (value : Datum) : String := render .compact 0 value

def pretty (value : Datum) : String := render .pretty 0 value

end DelayInjection.Json
