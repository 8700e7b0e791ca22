import Mathlib.Data.List.Basic
import DelayInjection.Control.Run
import DelayInjection.Proofs.Table

-- Calls cut into sections, between which other threads may do anything. What comes before the
-- check of a bucket is one section, and so is what a waking call leaves in the histories. From the
-- check on, a section is a single operation on what the threads share: what is done under the
-- lock of a bucket or of the ledger, one append to the bug file, one report, one release. A call
-- of `onCall` and `resume` is the run of its sections without interruption.

namespace DelayInjection

-- A classified call on its way to the check of its bucket.
structure Access where
  point : Point
  classification : Classification
  plan? : Option PlanHandle := none

-- What a call does before its check: it is classified, identified, and learned from. Without a
-- class it does not reach the check.
def Randomized.approach (c : Randomized) (call : Call) : Option Access × Randomized :=
  match c.identify call with
  | (none, c) => (none, c)
  | (some (point, classification), c) => (some { point, classification }, c)

def Learned.approach (c : Learned) (call : Call) : List Event × Option Access × Learned :=
  let (point, plan?, c) := c.stamp call
  let matched := if point.inPlan then [Event.planMatched point] else []
  match c.classify call with
  | (none, c) => (matched, none, { c with threads := c.threads.setLast point })
  | (some classification, c) =>
      let (point, c) := c.identify call point classification
      let c := { c with threads := c.threads.setLast point }
      let (learned, c) := c.learn classification.group.name point
      (matched ++ learned, some { point, classification, plan? }, c)

-- What a waking call leaves in the histories: credit for its point, and stalled threads.
def Learned.afterWait (c : Learned) (wait : Waiting) : Learned :=
  let c := c.grantCredit wait.trap.point c.params.inferSize.toInt
  { c with threads := (c.threads.markBlockedNear wait.trap.point (Learned.stallLimit c.params)).2 }

-- A conflict as it was handled: the race that its call learns of, and the traps set free.
structure Handling where
  trap : Trap
  racing : Point
  race? : Option Race
  released : List Nat

def Handling.pair (handling : Handling) : LocationPair :=
  Shared.pairOf handling.trap handling.racing

-- What is next for a conflict that counts as a race: a new one goes to the bug file and is
-- reported, a known one is suppressed, and then its trap is released.
inductive Phase
  | confirming
  | reporting
  | suppressing
  | releasing
deriving DecidableEq

namespace Phase

def events (racing : Point) (conflict : Trap) : Phase → List Event
  | .confirming => [.raceConfirmed (Shared.pairOf conflict racing)]
  | .reporting => [.raceFound conflict racing.captureStack]
  | .suppressing => [.duplicateRace conflict racing]
  | .releasing => []

def next? : Phase → Option Phase
  | .confirming => some .reporting
  | .reporting | .suppressing => some .releasing
  | .releasing => none

end Phase

-- Where a thread stands between two sections of its call. It handles its conflicts one after the
-- other, and settles one that is a race before it goes on to the next.
inductive Stage
  | checking (access : Access)
  | handling (racing : Point) (conflicts : List Trap) (race? : Option Race) (trap? : Option Trap)
  | settling (phase : Phase) (racing : Point) (conflict : Trap) (rest : List Trap)
      (race? : Option Race) (trap? : Option Trap)
  | asleep (wait : Waiting)
  | awake (wait : Waiting)
  | removed (wait : Waiting)

-- What a section tells: events, handled conflicts, and the result of a call that returns.
structure Output where
  events : List Event := []
  handled : List Handling := []
  result? : Option CallResult := none

namespace Shared

def raceOf (trap : Trap) (racing : Point) : Race :=
  { object := trap.object, trapped := trap.point.location, racing := racing.location }

-- The ledger decides about a conflict: a blacklisted one is handled by that, and any other one is
-- left to be settled.
def face (shared : Shared) (racing : Point) (conflict : Trap) (rest : List Trap)
    (race? : Option Race) (trap? : Option Trap) : Output × Stage × Shared :=
  let (verdict, ledger) := shared.ledger.record (pairOf conflict racing)
  let shared := { shared with ledger := ledger }
  match verdict with
  | .blacklisted =>
      ({ handled := [⟨conflict, racing, none, []⟩] }, .handling racing rest race? trap?, shared)
  | .new => ({}, .settling .confirming racing conflict rest race? trap?, shared)
  | .duplicate => ({}, .settling .suppressing racing conflict rest race? trap?, shared)

end Shared

-- One operation of the settlement of a race, which ends with the release of its trap.
def Phase.settle (phase : Phase) (racing : Point) (conflict : Trap) (rest : List Trap)
    (race? : Option Race) (trap? : Option Trap) : Output × Stage :=
  let race := Shared.raceOf conflict racing
  match phase.next? with
  | some phase' =>
      ({ events := phase.events racing conflict },
        .settling phase' racing conflict rest race? trap?)
  | none =>
      ({ handled := [⟨conflict, racing, some race, [conflict.id]⟩] },
        .handling racing rest (race?.or (some race)) trap?)

namespace Controller

def withShared (change : Shared → Shared) : Controller → Controller
  | .randomized c => .randomized { c with shared := change c.shared }
  | .learned c => .learned { c with shared := change c.shared }

def approach (call : Call) : Controller → List Event × Option Access × Controller
  | .randomized c => let (access?, c) := c.approach call; ([], access?, .randomized c)
  | .learned c => let (events, access?, c) := c.approach call; (events, access?, .learned c)

-- The section in which the bucket is locked.
def check (access : Access) : Controller → List Trap × Option Trap × Controller
  | .randomized c =>
      let (races, trap?, c) := c.decide access.point access.classification
      (races, trap?, .randomized c)
  | .learned c =>
      let (races, trap?, c) := c.decide access.point access.classification access.plan?
      (races, trap?, .learned c)

def afterWait (wait : Waiting) : Controller → Controller
  | .randomized c => .randomized c
  | .learned c => .learned (c.afterWait wait)

-- The next section of a call: what it tells, and the stage after it unless the call returns.
def advance (c : Controller) : Stage → Output × Option Stage × Controller
  | .checking access =>
      let (races, trap?, c) := c.check access
      ({}, some (.handling access.point races none trap?), c)
  | .handling racing (conflict :: rest) race? trap? =>
      let (output, stage, shared) := c.shared.face racing conflict rest race? trap?
      (output, some stage, c.withShared fun _ => shared)
  | .handling _ [] race? (some trap) =>
      ({ events := [.trapSet trap] }, some (.asleep { trap, race? }), c)
  | .handling _ [] race? none => ({ result? := some (c.shared.finish race?) }, none, c)
  | .settling phase racing conflict rest race? trap? =>
      let (output, stage) := phase.settle racing conflict rest race? trap?
      (output, some stage, c)
  | .asleep wait => ({}, some (.awake wait), c.afterWait wait)
  | .awake wait => ({}, some (.removed wait), c.withShared (·.removeTrap wait.trap))
  | .removed wait =>
      let c := c.withShared Shared.leave
      ({ result? := some (c.shared.finish wait.race?) }, none, c)

end Controller

-- A controller and the calls that are under way.
structure Interleaving where
  controller : Controller
  stages : Table ThreadId Stage := .empty

namespace Interleaving

-- A trap's wait may end at any time, by a release or by the clock, so that every thread that is
-- in a call can always go on.
inductive Action
  | arrive (call : Call)
  | advance (thread : ThreadId)
  | forget (address : Address)

def step (s : Interleaving) : Action → Option (Output × Interleaving)
  | .arrive call =>
      if s.stages.contains call.thread then none
      else
        let (events, access?, controller) := s.controller.approach call
        some
          ({ events, result? := if access?.isNone then some (.ok ()) else none },
            { controller, stages := s.stages.set call.thread (access?.map .checking) })
  | .advance thread =>
      match s.stages.get? thread with
      | none => none
      | some stage =>
          let (output, stage?, controller) := s.controller.advance stage
          some (output, { controller, stages := s.stages.set thread stage? })
  | .forget address =>
      let (_, events, controller) := s.controller.forget address
      some ({ events }, { s with controller := controller })

-- What an action that is possible does: a free thread calls, a thread goes on with its call, or
-- an instance is forgotten.
inductive Stepped (s : Interleaving) : Action → Output → Interleaving → Prop
  | arrive (call : Call) (free : s.stages.get? call.thread = none) :
      Stepped s (.arrive call)
        { events := (s.controller.approach call).1
          result? := if (s.controller.approach call).2.1.isNone then some (.ok ()) else none }
        { controller := (s.controller.approach call).2.2
          stages := s.stages.set call.thread ((s.controller.approach call).2.1.map .checking) }
  | advance (thread : ThreadId) (stage : Stage) (current : s.stages.get? thread = some stage) :
      Stepped s (.advance thread) (s.controller.advance stage).1
        { controller := (s.controller.advance stage).2.2
          stages := s.stages.set thread (s.controller.advance stage).2.1 }
  | forget (address : Address) :
      Stepped s (.forget address) { events := (s.controller.forget address).2.1 }
        { s with controller := (s.controller.forget address).2.2 }

theorem stepped {s s' : Interleaving} {action : Action} {output : Output}
    (h : s.step action = some (output, s')) : Stepped s action output s' := by
  cases action with
  | arrive call =>
      simp only [step] at h
      split at h
      · cases h
      · rename_i hbusy
        obtain ⟨rfl, rfl⟩ := Prod.mk.inj (Option.some.inj h)
        exact .arrive call ((Table.contains_eq_false_iff _ _).mp (by simpa using hbusy))
  | advance thread =>
      simp only [step] at h
      split at h
      · cases h
      · rename_i stage hstage
        obtain ⟨rfl, rfl⟩ := Prod.mk.inj (Option.some.inj h)
        exact .advance thread stage hstage
  | forget address =>
      obtain ⟨rfl, rfl⟩ := Prod.mk.inj (Option.some.inj h)
      exact .forget address

def exec (s : Interleaving) : List Action → Option (List Output × Interleaving)
  | [] => some ([], s)
  | action :: rest =>
      match s.step action with
      | none => none
      | some (output, s) => (s.exec rest).map fun (outputs, s) => (output :: outputs, s)

theorem exec_cons {s next last : Interleaving} {action : Action} {rest : List Action}
    {output : Output} {outputs : List Output} (hstep : s.step action = some (output, next))
    (hrest : next.exec rest = some (outputs, last)) :
    s.exec (action :: rest) = some (output :: outputs, last) := by
  rw [exec, hstep]
  simp only [hrest, Option.map_some]

theorem exec_uncons {s last : Interleaving} {action : Action} {rest : List Action}
    {outputs : List Output} (h : s.exec (action :: rest) = some (outputs, last)) :
    ∃ output next later, s.step action = some (output, next) ∧
      next.exec rest = some (later, last) ∧ outputs = output :: later := by
  rw [exec] at h
  split at h
  · cases h
  · rename_i output next hnext
    obtain ⟨⟨later, last⟩, hrest, he⟩ := Option.map_eq_some_iff.mp h
    obtain ⟨rfl, rfl⟩ := Prod.mk.inj he
    exact ⟨output, next, later, hnext, hrest, rfl⟩

-- What every step preserves holds after every run, of the outputs so far and the state.
theorem exec_induction_from {P : List Output → Interleaving → Prop}
    (hstep : ∀ outputs s action output s', P outputs s → s.step action = some (output, s') →
      P (outputs ++ [output]) s')
    {s s' : Interleaving} {actions : List Action} {before outputs : List Output}
    (h : s.exec actions = some (outputs, s')) (hstart : P before s) : P (before ++ outputs) s' := by
  induction actions generalizing s before outputs with
  | nil =>
      obtain ⟨rfl, rfl⟩ := Prod.mk.inj (Option.some.inj h)
      simpa using hstart
  | cons action rest ih =>
      obtain ⟨output, next, later, hnext, hrest, rfl⟩ := exec_uncons h
      have hlast := ih hrest (hstep before s action output next hstart hnext)
      simpa using hlast

theorem exec_induction {P : List Output → Interleaving → Prop}
    (hstep : ∀ outputs s action output s', P outputs s → s.step action = some (output, s') →
      P (outputs ++ [output]) s')
    {s s' : Interleaving} {actions : List Action} {outputs : List Output}
    (h : s.exec actions = some (outputs, s')) (hstart : P [] s) : P outputs s' :=
  exec_induction_from hstep h hstart

theorem exec_append {s s' s'' : Interleaving} {first second : List Action}
    {before after : List Output} (hfirst : s.exec first = some (before, s'))
    (hsecond : s'.exec second = some (after, s'')) :
    s.exec (first ++ second) = some (before ++ after, s'') := by
  induction first generalizing s before with
  | nil =>
      obtain ⟨rfl, rfl⟩ := Prod.mk.inj (Option.some.inj hfirst)
      exact hsecond
  | cons action rest ih =>
      obtain ⟨output, next, later, hnext, hrest, rfl⟩ := exec_uncons hfirst
      exact exec_cons hnext (ih hrest)

end Interleaving

end DelayInjection
