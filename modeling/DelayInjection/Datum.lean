namespace DelayInjection

-- The values of configuration documents and of machine-readable output, with the members of a
-- table in their written order.
inductive Datum
  | null
  | bool (value : Bool)
  | integer (value : Int)
  | float (value : Float)
  | text (value : String)
  | list (items : List Datum)
  | table (members : List (String × Datum))

namespace Datum

def ofTexts (texts : List String) : Datum := .list (texts.map .text)

-- A member that is written only when there is a value.
def optional {α : Type} (name : String) (write : α → Datum) (value : Option α) :
    List (String × Datum) :=
  (value.map fun value => (name, write value)).toList

end Datum

inductive DecodeError
  | expected (what : String)
  | missing (field : String)
  | surplus

def DecodeError.message : DecodeError → String
  | .expected what => "expected " ++ what
  | .missing field => "missing field '" ++ field ++ "'"
  | .surplus => "too many elements"

abbrev Decoder (α : Type) := Datum → Except DecodeError α

-- What a document format makes of two rare spellings: a choice written as a table with one
-- member, and a record written as a list of its fields.
structure Dialect where
  isEmptyPayload : Datum → Bool
  allowsSurplus : Bool

namespace Dialect

def json : Dialect where
  isEmptyPayload := fun | .null => true | _ => false
  allowsSurplus := false

def toml : Dialect where
  isEmptyPayload := fun | .list [] => true | .table [] => true | _ => false
  allowsSurplus := true

end Dialect

namespace Decode

def boolean : Decoder Bool
  | .bool value => .ok value
  | _ => .error (.expected "a boolean")

def text : Decoder String
  | .text value => .ok value
  | _ => .error (.expected "a string")

-- Whole numbers are numbers too, but not the other way round.
def float : Decoder Float
  | .float value => .ok value
  | .integer value => .ok (Float.ofInt value)
  | _ => .error (.expected "a number")

def integerIn {α : Type} (what : String) (narrow : Int → Option α) : Decoder α
  | .integer value =>
      match narrow value with
      | some word => .ok word
      | none => .error (.expected what)
  | _ => .error (.expected what)

def optional {α : Type} (decode : Decoder α) : Decoder (Option α)
  | .null => .ok none
  | value => (decode value).map some

def listOf {α : Type} (decode : Decoder α) : Decoder (List α)
  | .list items => items.mapM decode
  | _ => .error (.expected "a list")

-- A choice between names, some of which have several spellings.
def choice {α : Type} (dialect : Dialect) (options : List (String × α)) : Decoder α
  | .text name => named name
  | .table [(name, payload)] =>
      if dialect.isEmptyPayload payload then named name else .error (.expected "no content")
  | _ => .error (.expected "a name")
where
  named (name : String) : Except DecodeError α :=
    match options.lookup name with
    | some value => .ok value
    | none => .error (.expected "a known name")

-- The fields of a record, by their place or by their name.
inductive Fields
  | placed (items : List Datum)
  | named (members : List (String × Datum))

-- A record with the given number of fields. Members with other names are ignored.
def fields (dialect : Dialect) (count : Nat) : Datum → Except DecodeError Fields
  | .table members => .ok (.named members)
  | .list items =>
      if count < items.length && !dialect.allowsSurplus then .error .surplus
      else .ok (.placed items)
  | _ => .error (.expected "a table")

namespace Fields

def find? (fields : Fields) (place : Nat) (name : String) : Option Datum :=
  match fields with
  | .placed items => items[place]?
  | .named members => members.lookup name

def required {α : Type} (fields : Fields) (place : Nat) (name : String) (decode : Decoder α) :
    Except DecodeError α :=
  match fields.find? place name with
  | some value => decode value
  | none => .error (.missing name)

def get {α : Type} (fields : Fields) (place : Nat) (name : String) (decode : Decoder α)
    (default : α) : Except DecodeError α :=
  match fields.find? place name with
  | some value => decode value
  | none => .ok default

end Fields

end Decode

end DelayInjection
