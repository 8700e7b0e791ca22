import DelayInjection.Point
import DelayInjection.Text.Blank
import DelayInjection.Text.Fields

namespace DelayInjection

-- One side of a plan line.
structure PlanPoint where
  callee : String
  caller : String
  offset : Int32
  globalHits : Int64
  localHits : Int64
deriving DecidableEq

namespace PlanPoint

inductive NumberField
  | offset
  | globalHits
  | localHits
deriving DecidableEq

inductive Error
  | fieldCount (found : Nat)
  | emptyCallee
  | notNumber (field : NumberField) (text : String)
  | offsetRange (value : Int)
deriving DecidableEq

def NumberField.name : NumberField → String
  | .offset => "offset"
  | .globalHits => "global hit count"
  | .localHits => "local hit count"

def Error.message : Error → String
  | .fieldCount found => "expected 5 '|'-separated fields, found " ++ Text.ofNat found
  | .emptyCallee => "empty callee"
  | .notNumber field text => "invalid " ++ field.name ++ " '" ++ text ++ "'"
  | .offsetRange value => "offset out of range: " ++ Text.ofInt value

-- Numbers may stand between blanks; the message shows them with these.
def number (field : NumberField) (text : List Char) : Except Error Int64 :=
  match (Text.integer? (Text.trim text)).bind Text.int64? with
  | some n => .ok n
  | none => .error (.notNumber field (String.ofList text))

def offsetOf (n : Int64) : Except Error Int32 :=
  match Text.int32? n.toInt with
  | some offset => .ok offset
  | none => .error (.offsetRange n.toInt)

def ofFields : List (List Char) → Except Error PlanPoint
  | [callee, caller, offset, globalHits, localHits] =>
      if callee.isEmpty then .error .emptyCallee
      else do
        let offset ← number .offset offset
        let offset ← offsetOf offset
        let globalHits ← number .globalHits globalHits
        let localHits ← number .localHits localHits
        return { callee := String.ofList callee, caller := String.ofList caller, offset,
                 globalHits, localHits }
  | fields => .error (.fieldCount fields.length)

-- Reads `callee|caller|offset|globalHits|localHits`.
def ofChars (text : List Char) : Except Error PlanPoint := ofFields (Text.splitAll '|' text)

def parse (text : String) : Except Error PlanPoint := ofChars text.toList

def location (point : PlanPoint) : String := locationKey point.callee point.caller point.offset

def text (point : PlanPoint) : String :=
  point.location ++ "|" ++ Text.ofInt point.globalHits.toInt ++ "|" ++
    Text.ofInt point.localHits.toInt

end PlanPoint

def Point.toPlanPoint (point : Point) : PlanPoint where
  callee := point.callee
  caller := point.caller
  offset := point.offset
  globalHits := point.globalHits
  localHits := point.localHits

end DelayInjection
