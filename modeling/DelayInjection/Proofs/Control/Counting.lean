import DelayInjection.Proofs.Classifier
import DelayInjection.Proofs.Control.Effects

-- Points, traps and states without what is merely counted: global hits, and the answers that a
-- classifier has cached. No decision of a randomized controller goes by them, so that each of its
-- sections does the same to a state without counts.

namespace DelayInjection

def Point.uncounted (point : Point) : Point := { point with globalHits := 0 }

def Trap.uncounted (trap : Trap) : Trap := { trap with point := trap.point.uncounted }

namespace TrapBucket

def uncounted (bucket : TrapBucket) : TrapBucket where
  traps := bucket.traps.mapValues (List.map Trap.uncounted)

theorem on_uncounted (bucket : TrapBucket) (object : ObjectId) :
    bucket.uncounted.on object = (bucket.on object).map Trap.uncounted := by
  rw [on, on, uncounted, Table.get?_mapValues]
  cases bucket.traps.get? object <;> rfl

theorem register_uncounted (bucket : TrapBucket) (trap : Trap) :
    bucket.uncounted.register trap.uncounted = (bucket.register trap).uncounted := by
  have hobject : trap.uncounted.object = trap.object := rfl
  rw [register, register, hobject, on_uncounted, uncounted, uncounted, Table.mapValues_insert,
    List.map_append, List.map_singleton]

theorem remove_uncounted (bucket : TrapBucket) (trap : Trap) :
    bucket.uncounted.remove trap.uncounted = (bucket.remove trap).uncounted := by
  have hobject : trap.uncounted.object = trap.object := rfl
  have hget := Table.get?_mapValues bucket.traps (List.map Trap.uncounted) trap.object
  cases hfound : bucket.traps.get? trap.object with
  | none =>
      rw [hfound] at hget
      simp only [remove, hobject, uncounted, hget, hfound, Option.map_none]
  | some traps =>
      have hkept : (traps.map Trap.uncounted).filter (·.id != trap.id) =
          (traps.filter (·.id != trap.id)).map Trap.uncounted := by
        rw [List.filter_map]
        rfl
      have hid : trap.uncounted.id = trap.id := rfl
      rw [hfound] at hget
      simp only [remove, hobject, hid, uncounted, hget, hfound, Option.map_some, hkept,
        List.isEmpty_map]
      split
      · rw [Table.mapValues_erase]
      · rw [Table.mapValues_insert]

end TrapBucket

namespace TrapStore

def uncounted (store : TrapStore) : TrapStore :=
  { store with buckets := store.buckets.mapValues TrapBucket.uncounted }

theorem bucket_uncounted (store : TrapStore) (group : String) :
    store.uncounted.bucket group = (store.bucket group).uncounted := by
  rw [bucket, bucket, uncounted, Table.get?_mapValues]
  cases store.buckets.get? group <;> rfl

theorem register_uncounted (store : TrapStore) (trap : Trap) :
    store.uncounted.register trap.uncounted = (store.register trap).uncounted := by
  have hgroup : trap.uncounted.group = trap.group := rfl
  simp only [register, hgroup, bucket_uncounted, TrapBucket.register_uncounted]
  simp only [uncounted, Table.mapValues_insert]

theorem remove_uncounted (store : TrapStore) (trap : Trap) :
    store.uncounted.remove trap.uncounted = (store.remove trap).uncounted := by
  have hgroup : trap.uncounted.group = trap.group := rfl
  simp only [remove, removeFrom, hgroup, bucket_uncounted, TrapBucket.remove_uncounted]
  simp only [uncounted, Table.mapValues_insert]

end TrapStore

def Event.uncounted : Event → Event
  | .planMatched point => .planMatched point.uncounted
  | .dangerousPair earlier later => .dangerousPair earlier.uncounted later.uncounted
  | .pairPruned point blocker => .pairPruned point.uncounted blocker.uncounted
  | .raceConfirmed pair => .raceConfirmed pair
  | .raceFound trap racing => .raceFound trap.uncounted racing.uncounted
  | .duplicateRace trap racing => .duplicateRace trap.uncounted racing.uncounted
  | .trapSet trap => .trapSet trap.uncounted
  | .objectForgotten object queues => .objectForgotten object queues

def Call.uncounted (call : Call) : Call := { call with globalHits := 0 }

def Access.uncounted (access : Access) : Access := { access with point := access.point.uncounted }

def Waiting.uncounted (wait : Waiting) : Waiting := { wait with trap := wait.trap.uncounted }

def Handling.uncounted (handling : Handling) : Handling :=
  { handling with trap := handling.trap.uncounted, racing := handling.racing.uncounted }

def Stage.uncounted : Stage → Stage
  | .checking access => .checking access.uncounted
  | .handling racing conflicts race? trap? =>
      .handling racing.uncounted (conflicts.map Trap.uncounted) race? (trap?.map Trap.uncounted)
  | .settling phase racing conflict rest race? trap? =>
      .settling phase racing.uncounted conflict.uncounted (rest.map Trap.uncounted) race?
        (trap?.map Trap.uncounted)
  | .asleep wait => .asleep wait.uncounted
  | .awake wait => .awake wait.uncounted
  | .removed wait => .removed wait.uncounted

def Output.uncounted (output : Output) : Output :=
  { output with
    events := output.events.map Event.uncounted
    handled := output.handled.map Handling.uncounted }

namespace Shared

def uncounted (shared : Shared) : Shared :=
  { shared with
    classifier := { groups := shared.classifier.groups }
    traps := shared.traps.uncounted }

theorem trapsOn_uncounted (shared : Shared) (group : String) (object : ObjectId) :
    shared.uncounted.trapsOn group object = (shared.trapsOn group object).map Trap.uncounted := by
  rw [trapsOn, trapsOn, uncounted, TrapStore.bucket_uncounted, TrapBucket.on_uncounted]

theorem face_uncounted (shared : Shared) (racing : Point) (conflict : Trap) (rest : List Trap)
    (race? : Option Race) (trap? : Option Trap) :
    shared.uncounted.face racing.uncounted conflict.uncounted (rest.map Trap.uncounted) race?
        (trap?.map Trap.uncounted) =
      ((shared.face racing conflict rest race? trap?).1.uncounted,
        (shared.face racing conflict rest race? trap?).2.1.uncounted,
        (shared.face racing conflict rest race? trap?).2.2.uncounted) := by
  have hpair : pairOf conflict.uncounted racing.uncounted = pairOf conflict racing := rfl
  have hledger : shared.uncounted.ledger = shared.ledger := rfl
  simp only [face, hpair, hledger]
  obtain ⟨verdict, ledger⟩ := shared.ledger.record (pairOf conflict racing)
  cases verdict <;> rfl

theorem setTrap_uncounted (shared : Shared) (point : Point) (classification : Classification)
    (delayMs : Nat) :
    shared.uncounted.setTrap point.uncounted classification delayMs =
      ((shared.setTrap point classification delayMs).1.uncounted,
        (shared.setTrap point classification delayMs).2.uncounted) := by
  have hregister := TrapStore.register_uncounted shared.traps.nextId.2
    { id := shared.traps.nextId.1, point := point.captureStack, classification, delayMs }
  simp only [setTrap, uncounted, ← hregister]
  rfl

theorem removeTrap_uncounted (shared : Shared) (trap : Trap) :
    shared.uncounted.removeTrap trap.uncounted = (shared.removeTrap trap).uncounted := by
  simp only [removeTrap, uncounted, TrapStore.remove_uncounted]

theorem objectFor_uncounted (shared : Shared) (classification : Classification)
    (instance? : Option Address) :
    shared.uncounted.objectFor classification instance? =
      ((shared.objectFor classification instance?).1,
        (shared.objectFor classification instance?).2.uncounted) := by
  rw [objectFor, objectFor]
  split <;> rfl

end Shared

namespace Randomized

def uncounted (c : Randomized) : Randomized := { c with shared := c.shared.uncounted }

theorem shared_uncounted (c : Randomized) : c.uncounted.shared = c.shared.uncounted := rfl

theorem conflicts_uncounted (c : Randomized) (point : Point) (classification : Classification) :
    c.uncounted.conflicts point.uncounted classification =
      (c.conflicts point classification).map Trap.uncounted := by
  have htraps := c.shared.trapsOn_uncounted classification.group.name point.object
  simp only [conflicts, uncounted]
  rw [show point.uncounted.object = point.object from rfl, htraps, List.filter_map]
  rfl

theorem tryTrap_uncounted (c : Randomized) (point : Point) (classification : Classification) :
    c.uncounted.tryTrap point.uncounted classification =
      ((c.tryTrap point classification).1.map Trap.uncounted,
        (c.tryTrap point classification).2.uncounted) := by
  have hrandom : c.uncounted.random = c.random := rfl
  have hprobability : c.uncounted.delayProbability = c.delayProbability := rfl
  have hactive : c.uncounted.shared.active = c.shared.active := rfl
  simp only [tryTrap, hrandom, hprobability, hactive]
  split
  · obtain ⟨free, active⟩ := c.shared.active.tryEnterExclusive
    cases free with
    | false => rfl
    | true =>
        have hset := Shared.setTrap_uncounted { c.shared with active := active } point
          classification (c.random.unit.2.below c.maxDelayMs).1
        simp only [Shared.uncounted] at hset
        simp only [uncounted, Shared.uncounted, hset, Option.map_some]
  · rfl

theorem decide_uncounted (c : Randomized) (point : Point) (classification : Classification) :
    c.uncounted.decide point.uncounted classification =
      ((c.decide point classification).1.map Trap.uncounted,
        (c.decide point classification).2.1.map Trap.uncounted,
        (c.decide point classification).2.2.uncounted) := by
  have hwrite : point.uncounted.isWrite = point.isWrite := rfl
  simp only [decide, conflicts_uncounted, tryTrap_uncounted, hwrite, List.isEmpty_map]
  split <;> rfl

end Randomized

namespace Controller

-- A learned controller goes by its counts.
def uncounted : Controller → Controller
  | .randomized c => .randomized c.uncounted
  | .learned c => .learned c

-- What a section tells and leaves behind, without counts.
theorem advance_uncounted (c : Randomized) (stage : Stage) :
    (Controller.randomized c.uncounted).advance stage.uncounted =
      (((Controller.randomized c).advance stage).1.uncounted,
        ((Controller.randomized c).advance stage).2.1.map Stage.uncounted,
        ((Controller.randomized c).advance stage).2.2.uncounted) := by
  cases stage with
  | checking access =>
      have hdecide := c.decide_uncounted access.point access.classification
      simp only [Stage.uncounted, Access.uncounted, advance, check, hdecide]
      rfl
  | handling racing conflicts race? trap? =>
      cases conflicts with
      | nil => cases trap? <;> rfl
      | cons conflict rest =>
          have hfaced := c.shared.face_uncounted racing conflict rest race? trap?
          simp only [Stage.uncounted, List.map_cons, advance, shared, Randomized.shared_uncounted,
            hfaced]
          rfl
  | settling phase racing conflict rest race? trap? => cases phase <;> rfl
  | asleep wait => rfl
  | awake wait =>
      have hremoved := c.shared.removeTrap_uncounted wait.trap
      simp only [Stage.uncounted, Waiting.uncounted, advance, withShared,
        Randomized.shared_uncounted, hremoved]
      rfl
  | removed wait => rfl

theorem forget_uncounted (c : Randomized) (address : Address) :
    (Controller.randomized c.uncounted).forget address =
      (((Controller.randomized c).forget address).1, [],
        ((Controller.randomized c).forget address).2.2.uncounted) := rfl

end Controller

end DelayInjection
