import DelayInjection.Table
import DelayInjection.Plan.Basic

-- The plans of a run. Plans that name one call site are found by their key; the others are
-- patterns, tried in the order in which they came. A merge makes a new version of a plan, with
-- an injection counter of its own, so that handles given out before keep what they saw.

namespace DelayInjection

-- One version of a stored plan. Handles of one version share its counter.
structure PlanHandle where
  plan : TrapPlan
  counter : Nat

structure PatternPlan where
  handle : PlanHandle
  callee : Pattern
  caller : Option Pattern

namespace PatternPlan

-- Compiles the names of a plan, or gives the first one that is refused.
def compile (limit : RegexLimit) (handle : PlanHandle) : Except String PatternPlan :=
  match Pattern.compile? limit handle.plan.callee with
  | none => .error handle.plan.callee
  | some callee =>
      match handle.plan.caller with
      | none => .ok { handle, callee, caller := none }
      | some text =>
          match Pattern.compile? limit text with
          | none => .error text
          | some caller => .ok { handle, callee, caller := some caller }

def accepts (pattern : PatternPlan) (point : Point) (globalWindow localWindow : Int64) : Bool :=
  let plan := pattern.handle.plan
  pattern.callee.accepts point.callee && pattern.caller.all (·.accepts point.caller) &&
    (plan.offset.toInt < 0 || plan.offset == point.offset) &&
    plan.acceptsPoint point globalWindow localWindow

end PatternPlan

-- Exact plans by their keys; patterns in the order of their arrival, with an index from their keys
-- to their places.
structure PlanStore where
  exact : Table String PlanHandle := .empty
  patterns : List PatternPlan := []
  patternIndex : Table String Nat := .empty
  injections : Table Nat Nat := .empty
  nextCounter : Nat := 0

namespace PlanStore

def injectionsOf (store : PlanStore) (handle : PlanHandle) : Nat :=
  (store.injections.get? handle.counter).getD 0

def recordInjection (store : PlanStore) (handle : PlanHandle) : PlanStore :=
  { store with
    injections := store.injections.insert handle.counter (store.injectionsOf handle + 1) }

-- A handle of a plan with a counter of its own, which starts from a count.
def newHandle (store : PlanStore) (plan : TrapPlan) (count : Nat) : PlanHandle × PlanStore :=
  ({ plan, counter := store.nextCounter },
    { store with
      injections := store.injections.insert store.nextCounter count
      nextCounter := store.nextCounter + 1 })

-- The version of a plan after a merge goes on from the count of the version before it; the count
-- of the other plan is given up.
def mergeHandle (store : PlanStore) (handle : PlanHandle) (plan : TrapPlan) :
    PlanHandle × PlanStore :=
  store.newHandle (handle.plan.merge plan) (store.injectionsOf handle)

def addExact (store : PlanStore) (key : String) (plan : TrapPlan) : PlanStore :=
  match store.exact.get? key with
  | some handle =>
      let (merged, store) := store.mergeHandle handle plan
      { store with exact := store.exact.insert key merged }
  | none =>
      let (handle, store) := store.newHandle plan plan.injections.toNat
      { store with exact := store.exact.insert key handle }

-- Merges a plan into the pattern at a place. The index names no place beyond the patterns.
def mergePattern (store : PlanStore) (index : Nat) (plan : TrapPlan) : PlanStore :=
  match store.patterns[index]? with
  | some pattern =>
      let (merged, store) := store.mergeHandle pattern.handle plan
      { store with patterns := store.patterns.set index { pattern with handle := merged } }
  | none => store

-- A new pattern is compiled before anything of it is stored.
def addPattern (limit : RegexLimit) (store : PlanStore) (key : String) (plan : TrapPlan) :
    Option String × PlanStore :=
  match store.patternIndex.get? key with
  | some index => (none, store.mergePattern index plan)
  | none =>
      let (handle, counted) := store.newHandle plan plan.injections.toNat
      match PatternPlan.compile limit handle with
      | .error text => (some text, store)
      | .ok pattern =>
          (none,
            { counted with
              patternIndex := store.patternIndex.insert key store.patterns.length
              patterns := store.patterns ++ [pattern] })

-- Adds a plan, or merges it into the plan with its key. The answer is a refused pattern, if there
-- is one, and the store after the attempt.
def add (limit : RegexLimit) (store : PlanStore) (plan : TrapPlan) : Option String × PlanStore :=
  if plan.isExact then (none, store.addExact plan.identityKey plan)
  else store.addPattern limit plan.identityKey plan

-- Adds plans up to the first one that is refused; those before it stay.
def extend (limit : RegexLimit) (store : PlanStore) : List TrapPlan → Option String × PlanStore
  | [] => (none, store)
  | plan :: rest =>
      match store.add limit plan with
      | (some pattern, store) => (some pattern, store)
      | (none, store) => store.extend limit rest

-- The plan that governs a point. An exact plan with the key of the point decides alone.
def find? (store : PlanStore) (point : Point) (globalWindow localWindow : Int64) :
    Option PlanHandle :=
  match store.exact.get? (TrapPlan.keyOf point.callee point.caller point.offset) with
  | some handle =>
      if handle.plan.acceptsPoint point globalWindow localWindow then some handle else none
  | none =>
      (store.patterns.find? (·.accepts point globalWindow localWindow)).map (·.handle)

-- Exact plans in the order of their keys, then patterns in the order of their arrival.
def handles (store : PlanStore) : List PlanHandle :=
  (store.exact.entries.mergeSort fun a b => a.1 ≤ b.1).map (·.2) ++
    store.patterns.map (·.handle)

def plans (store : PlanStore) : List TrapPlan := store.handles.map (·.plan)

def size (store : PlanStore) : Nat := store.exact.size + store.patterns.length

def isEmpty (store : PlanStore) : Bool := store.size == 0

end PlanStore

end DelayInjection
