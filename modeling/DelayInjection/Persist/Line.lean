import DelayInjection.LocationPair
import DelayInjection.Persist.PlanPoint

-- The lines of plan files, `A ! B`, and of bug files, two location keys. Blank lines and lines
-- that begin with `#` say nothing.

namespace DelayInjection

inductive LineError
  | noSeparator
  | badPoint (error : PlanPoint.Error)
  | notTwoKeys
deriving DecidableEq

def LineError.message : LineError → String
  | .noSeparator => "missing '!' separator"
  | .badPoint error => error.message
  | .notTwoKeys => "expected exactly two location keys"

def isSkipped (line : List Char) : Bool :=
  match Text.trim line with
  | [] => true
  | c :: _ => c == '#'

abbrev PlanLine := PlanPoint × PlanPoint

namespace PlanLine

def separator : List Char := [' ', '!', ' ']

def side (text : List Char) : Except LineError PlanPoint :=
  (PlanPoint.ofChars (Text.trim text)).mapError .badPoint

def ofChars (line : List Char) : Except LineError (Option PlanLine) :=
  if isSkipped line then .ok none
  else
    match Text.splitOnce separator (Text.trim line) with
    | none => .error .noSeparator
    | some (a, b) => do
        let a ← side a
        let b ← side b
        return some (a, b)

def parse (line : String) : Except LineError (Option PlanLine) := ofChars line.toList

def format (a b : String) : String := a ++ String.ofList separator ++ b

end PlanLine

namespace BugLine

def ofChars (line : List Char) : Except LineError (Option LocationPair) :=
  if isSkipped line then .ok none
  else
    match Text.words line with
    | [a, b] => .ok (some (.of (String.ofList a) (String.ofList b)))
    | _ => .error .notTwoKeys

def parse (line : String) : Except LineError (Option LocationPair) := ofChars line.toList

end BugLine

end DelayInjection
