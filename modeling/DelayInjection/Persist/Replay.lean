import DelayInjection.Plan.Basic
import DelayInjection.Persist.Line

namespace DelayInjection

def distinct {α : Type} [DecidableEq α] : List α → List α
  | [] => []
  | item :: rest => item :: (distinct rest).filter (· ≠ item)

def PlanPoint.toPlan (point : PlanPoint) (repeats : Bool) (delayMs : UInt64) : TrapPlan where
  callee := point.callee
  caller := some point.caller
  offset := point.offset
  hitCounts := [{ localHits := point.localHits, globalHits := point.globalHits }]
  fixedDelayMs := some delayMs
  repeats := repeats

def pointsOf (lines : List PlanLine) : List PlanPoint := lines.flatMap fun line => [line.1, line.2]

-- One plan for every different point; a point that comes more than once is trapped repeatedly.
def plansFromPairs (lines : List PlanLine) (delayMs : UInt64) : List TrapPlan :=
  (distinct (pointsOf lines)).map fun point =>
    point.toPlan (1 < (pointsOf lines).count point) delayMs

end DelayInjection
