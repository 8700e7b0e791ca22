import DelayInjection.Text.Numeral

namespace DelayInjection

abbrev ThreadId := UInt64

abbrev Address := UInt64

-- Identities are numbers; zero is shared by everything that has static scope.
abbrev ObjectId := Nat

def staticObject : ObjectId := 0

-- The key of a call site, `callee|caller|offset`.
def locationKey (callee caller : String) (offset : Int32) : String :=
  callee ++ "|" ++ caller ++ "|" ++ Text.ofInt offset.toInt

-- One observed hit of a guarded call site. Times are nanoseconds of a clock that never goes
-- back, wall times milliseconds around the Unix epoch. The stack belongs to a point only once it
-- is captured. Points made by one run have different serial numbers.
structure Point where
  callee : String
  caller : String
  offset : Int32
  thread : ThreadId
  time : Nat := 0
  wallMs : Int := 0
  object : ObjectId := staticObject
  isWrite : Bool := false
  localHits : Int64 := 0
  globalHits : Int64 := 0
  inPlan : Bool := false
  activeThreads : Nat := 0
  stack : String := ""
  hasStack : Bool := false
  serial : Nat := 0
deriving DecidableEq

namespace Point

def location (point : Point) : String := locationKey point.callee point.caller point.offset

-- The form kept in plan files, `callee|caller|offset|globalHits|localHits`.
def planText (point : Point) : String :=
  point.location ++ "|" ++ Text.ofInt point.globalHits.toInt ++ "|" ++
    Text.ofInt point.localHits.toInt

-- Wall times before the epoch count as the epoch.
def unixMs (point : Point) : Nat := point.wallMs.toNat

def captureStack (point : Point) : Point := { point with hasStack := true }

def stackTrace? (point : Point) : Option String :=
  if point.hasStack then some point.stack else none

-- How far two points lie apart in time, whichever came first.
def distance (a b : Point) : Nat := (a.time - b.time) + (b.time - a.time)

end Point

-- Delay credit is granted after a trap wait and spent one unit at a time, never below zero.
def spendCredit (credit : Int) : Option Int := if 0 < credit then some (credit - 1) else none

end DelayInjection
