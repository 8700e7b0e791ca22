import DelayInjection.HitCount
import DelayInjection.Pattern
import DelayInjection.Point
import DelayInjection.Random

namespace DelayInjection

-- A call site to delay on purpose. Names may hold stars, an absent caller is any caller, a
-- negative offset any offset, and an empty list of hit counts any hit. A copy of a plan has the
-- injections of the original behind it.
structure TrapPlan where
  callee : String
  caller : Option String := none
  offset : Int32 := -1
  thread : Option ThreadId := none
  hitCounts : List HitCount := []
  delayProbability : Float := 1
  decayFactor : Float := 0
  fixedDelayMs : Option UInt64 := none
  randomDelayMs : Option UInt64 := none
  repeats : Bool := false
  injections : UInt32 := 0

-- Square and multiply, from the lowest bit of the exponent upwards.
def powerLoop (result base : Float) (n : Nat) : Float :=
  let result := if n % 2 = 1 then result * base else result
  if n / 2 = 0 then result else powerLoop result (base * base) (n / 2)
termination_by n

def power (base : Float) (n : Nat) : Float := powerLoop 1 base n

def clampUnit (x : Float) : Float := if x < 0 then 0 else if 1 < x then 1 else x

namespace TrapPlan

def keyOf (callee caller : String) (offset : Int32) : String :=
  callee ++ ";" ++ caller ++ ";" ++ Text.ofInt offset.toInt

-- Plans with one key are merged.
def identityKey (plan : TrapPlan) : String := keyOf plan.callee (plan.caller.getD "") plan.offset

def isExact (plan : TrapPlan) : Bool :=
  !Pattern.isWildcard plan.callee && plan.caller.any (!Pattern.isWildcard ·) &&
    0 ≤ plan.offset.toInt

def acceptsThread (plan : TrapPlan) (thread : ThreadId) : Bool := plan.thread.all (· == thread)

def acceptsHits (plan : TrapPlan) (localHits globalHits globalWindow localWindow : Int64) : Bool :=
  plan.hitCounts.isEmpty ||
    plan.hitCounts.any (·.accepts localHits localWindow globalHits globalWindow)

def acceptsPoint (plan : TrapPlan) (point : Point) (globalWindow localWindow : Int64) : Bool :=
  plan.acceptsThread point.thread &&
    plan.acceptsHits point.localHits point.globalHits globalWindow localWindow

def probabilityAfter (plan : TrapPlan) (injections : Nat) : Float :=
  plan.delayProbability * power (clampUnit (1 - plan.decayFactor)) injections

def shouldInject (plan : TrapPlan) (injections : Nat) (random : RandomSource) :
    Bool × RandomSource :=
  let (draw, random) := random.unit
  (draw < plan.probabilityAfter injections, random)

-- The fixed delay, or a draw below the bound of the plan, or one below the general bound.
def delay (plan : TrapPlan) (maxDelayMs : Nat) (random : RandomSource) : Nat × RandomSource :=
  match plan.fixedDelayMs with
  | some ms => (ms.toNat, random)
  | none => random.below ((plan.randomDelayMs.map UInt64.toNat).getD maxDelayMs)

-- Takes over the hit counts of another plan with the same key, and its wish to repeat.
def merge (plan other : TrapPlan) : TrapPlan :=
  { plan with
    hitCounts := plan.hitCounts ++ other.hitCounts
    repeats := plan.repeats || other.repeats }

end TrapPlan

end DelayInjection
