import DelayInjection.Config.Basic
import DelayInjection.Control.Shared
import DelayInjection.Danger
import DelayInjection.History.AccessLog
import DelayInjection.History.LocalHits
import DelayInjection.History.RecentThreads
import DelayInjection.History.ThreadRecords
import DelayInjection.Plan.Store

-- The learned controller: it watches every call, learns which call sites come close to racing,
-- and concentrates its traps on these. A trap that stalls another thread hints at an ordering by
-- synchronization, which costs the pair its place among the dangerous ones.

namespace DelayInjection

structure Learned where
  shared : Shared
  params : LearnedParams
  plans : PlanStore
  lockApis : PatternSet
  random : RandomSource
  recent : RecentThreads
  accesses : AccessLog
  localHits : LocalHits := {}
  threads : ThreadRecords := {}
  danger : DangerTracker := {}
  credits : Table Nat Int := .empty
  nextSerial : Nat := 0

namespace Learned

def maxDelayMs (c : Learned) : Nat := c.params.maxDelayMs.toNat

def credit (c : Learned) (point : Point) : Int := (c.credits.get? point.serial).getD 0

def grantCredit (c : Learned) (point : Point) (credit : Int) : Learned :=
  { c with credits := c.credits.insert point.serial credit }

def spendCredit (c : Learned) (point : Point) : Bool × Learned :=
  match DelayInjection.spendCredit (c.credit point) with
  | some left => (true, c.grantCredit point left)
  | none => (false, c)

-- The point of a call with its counts, and the plan that governs it.
def stamp (c : Learned) (call : Call) : Point × Option PlanHandle × Learned :=
  let point := call.point c.nextSerial
  let (hits, localHits) := c.localHits.next point.location
  let point := { point with localHits := hits }
  let plan? :=
    c.plans.find? point c.params.globalHitcountWindow c.params.localHitcountWindow
  let (activeThreads, recent) := c.recent.push point.thread
  ({ point with inPlan := plan?.isSome, activeThreads }, plan?,
    { c with localHits := localHits, recent := recent, nextSerial := c.nextSerial + 1 })

-- The class of a call, which lock operations do not have.
def classify (c : Learned) (call : Call) : Option Classification × Learned :=
  if c.lockApis.matchesAny call.callee then (none, c)
  else
    let (answer, shared) := c.shared.classify call.callee call.instance?
    (answer, { c with shared := shared })

def identify (c : Learned) (call : Call) (point : Point) (classification : Classification) :
    Point × Learned :=
  let (object, shared) := c.shared.objectFor classification call.instance?
  ({ point with object, isWrite := classification.isWrite }, { c with shared := shared })

def isLearning (c : Learned) (point : Point) : Bool :=
  !point.inPlan && c.params.detectDangerousPairs

def isCandidate (c : Learned) (earlier later : Point) : Bool :=
  earlier.thread != later.thread && (earlier.isWrite || later.isWrite) &&
    later.time - earlier.time ≤ c.params.nearMissWindowMs.toNat * 1000000 &&
    (1 < earlier.activeThreads || 1 < later.activeThreads) &&
    !c.shared.ledger.isBlacklisted (.of earlier.location later.location)

def discoverPair (later : Point) (state : List Event × Learned) (earlier : Point) :
    List Event × Learned :=
  let (events, c) := state
  if c.isCandidate earlier later then
    let (accepted, danger) := c.danger.consider (.of earlier.location later.location)
      c.params.pairDecayThreshold.toNat
    (if accepted then events ++ [.dangerousPair earlier later] else events,
      { c with danger := danger })
  else (events, c)

-- Records an access, and looks for dangerous pairs with those kept before it.
def discoverPairs (c : Learned) (group : String) (point : Point) : List Event × Learned :=
  let (previous, accesses) := c.accesses.push group point
  previous.foldl (discoverPair point) ([], { c with accesses := accesses })

-- Spends credit of the point that stalled this thread on the pair of the two.
def pruneHappensBefore (c : Learned) (point : Point) : List Event × Learned :=
  match c.threads.blockedBy point.thread with
  | none => ([], c)
  | some blocker =>
      let (spent, c) := c.spendCredit blocker
      let (removed, c) :=
        if spent then
          let (removed, danger) := c.danger.remove (.of point.location blocker.location)
          (removed, { c with danger := danger })
        else (false, c)
      let c :=
        if c.credit blocker ≤ 0 then { c with threads := c.threads.clearBlockedBy point.thread }
        else c
      (if removed then [.pairPruned point blocker] else [], c)

def learn (c : Learned) (group : String) (point : Point) : List Event × Learned :=
  if c.isLearning point then
    let (found, c) := c.discoverPairs group point
    let (pruned, c) := c.pruneHappensBefore point
    (found ++ pruned, c)
  else ([], c)

-- The delay of a new trap, or nothing when the point is not eligible or the draw is against it.
-- A point of a live pair is weighed whatever comes of it.
def trapTerms (c : Learned) (point : Point) (plan? : Option PlanHandle) : Option Nat × Learned :=
  if plan?.isNone && !point.isWrite then (none, c)
  else
    let (danger?, danger) := c.danger.weigh point.location
    let c := { c with danger := danger }
    let firstTrap := c.params.trapUnknownPoints && !c.shared.active.anyActive
    if !(firstTrap || danger?.isSome || point.inPlan) then (none, c)
    else
      match plan?, danger? with
      | some handle, _ =>
          let (inject, random) :=
            handle.plan.shouldInject (c.plans.injectionsOf handle) c.random
          if inject then
            let (delayMs, random) := handle.plan.delay c.maxDelayMs random
            (some delayMs, { c with random := random })
          else (none, { c with random := random })
      | none, some level =>
          let (draw, random) := c.random.unit
          let probability :=
            c.params.dangerousDelayProbability - c.params.decayFactor * Float.ofNat level
          (if draw < probability then some c.params.dangerousDelayMs.toNat else none,
            { c with random := random })
      | none, none =>
          let (delayMs, random) := c.random.below c.maxDelayMs
          let (draw, random) := random.unit
          (if draw < c.params.delayProbability then some delayMs else none,
            { c with random := random })

-- The traps of other threads that the access races with, oldest first.
def conflicts (c : Learned) (point : Point) (classification : Classification) : List Trap :=
  (c.shared.trapsOn classification.group.name point.object).filter fun trap =>
    trap.point.thread != point.thread && trap.conflictsWith point.isWrite &&
      !c.shared.ledger.isBlacklisted (Shared.pairOf trap point)

-- What is decided while the bucket of the group is locked. Without a repeating plan only the
-- oldest conflict counts, and it rules out a trap.
def decide (c : Learned) (point : Point) (classification : Classification)
    (plan? : Option PlanHandle) : List Trap × Option Trap × Learned :=
  let repeats := plan?.any (·.plan.repeats)
  let found := c.conflicts point classification
  let races := if repeats then found else found.take 1
  if !races.isEmpty && !repeats then (races, none, c)
  else
    match c.trapTerms point plan? with
    | (none, c) => (races, none, c)
    | (some delayMs, c) =>
        let (trap, shared) := c.shared.setTrap point classification delayMs
        let c := { c with shared := { shared with active := shared.active.enter } }
        (races, some trap,
          match plan? with
          | some handle => { c with plans := c.plans.recordInjection handle }
          | none => c)

-- Reports the races of a call, and returns from it unless it has set a trap.
def settle (c : Learned) (point : Point) (events : List Event) (races : List Trap)
    (trap? : Option Trap) : Arrival × Learned :=
  let handled := c.shared.handleConflicts races point
  let c := { c with shared := handled.shared }
  let events := events ++ handled.events
  match trap? with
  | none =>
      ({ outcome := .returned (c.shared.finish handled.race?), events,
         released := handled.released }, c)
  | some trap =>
      ({ outcome := .waiting { trap, race? := handled.race? },
         events := events ++ [.trapSet trap], released := handled.released }, c)

def onCall (c : Learned) (call : Call) : Arrival × Learned :=
  let (point, plan?, c) := c.stamp call
  let matched := if point.inPlan then [Event.planMatched point] else []
  match c.classify call with
  | (none, c) =>
      ({ outcome := .returned (.ok ()), events := matched },
        { c with threads := c.threads.setLast point })
  | (some classification, c) =>
      let (point, c) := c.identify call point classification
      let c := { c with threads := c.threads.setLast point }
      let (learned, c) := c.learn classification.group.name point
      let (races, trap?, c) := c.decide point classification plan?
      c.settle point (matched ++ learned) races trap?

-- A length of time in seconds, rounded to nanoseconds with ties to even; nothing when it is too
-- long for a clock, and zero when it is negative or no number.
def nanoseconds (seconds : Float) : TimeLimit :=
  if seconds ≤ 0 ∨ seconds.isNaN then some 0
  else if 18446744073709551616 ≤ seconds then none
  else
    let bits := seconds.toBits.toNat
    let fraction := bits % Nat.pow 2 52
    let biased := bits / Nat.pow 2 52 % 2048
    let mantissa := (if biased = 0 then fraction else Nat.pow 2 52 + fraction) * 1000000000
    let shift := max biased 1
    if 1075 ≤ shift then some (mantissa * Nat.pow 2 (shift - 1075))
    else
      let divisor := Nat.pow 2 (1075 - shift)
      let quotient := mantissa / divisor
      let rest := mantissa % divisor
      some (if divisor < 2 * rest ∨ (2 * rest = divisor ∧ quotient % 2 = 1) then quotient + 1
        else quotient)

-- How near another thread has to be to count as stalled by a trap.
def stallLimit (params : LearnedParams) : TimeLimit :=
  nanoseconds (params.inferLimit * params.dangerousDelayMs.toFloat / 1000)

-- The rest of a call after its wait: its point gets credit and stalls the threads near it, the
-- trap leaves its bucket, and one trap fewer is active.
def resume (c : Learned) (wait : Waiting) : CallResult × Learned :=
  let c := c.grantCredit wait.trap.point c.params.inferSize.toInt
  let (_, threads) := c.threads.markBlockedNear wait.trap.point (stallLimit c.params)
  let c := { c with threads := threads, shared := (c.shared.removeTrap wait.trap).leave }
  (c.shared.finish wait.race?, c)

-- Drops the identity of a freed instance, and what is kept of its accesses.
def forget (c : Learned) (address : Address) : Option ObjectId × List Event × Learned :=
  let (id?, objects) := c.shared.objects.forget address
  let c := { c with shared := { c.shared with objects := objects } }
  match id? with
  | none => (none, [], c)
  | some id =>
      let (queues, accesses) := c.accesses.forget id
      (some id, [.objectForgotten id queues], { c with accesses := accesses })

end Learned

end DelayInjection
