import DelayInjection.Proofs.Control.Effects

-- What the accesses of calls are: their class, object and plan.

namespace DelayInjection

namespace Call

def location (call : Call) : String := locationKey call.callee call.caller call.offset

end Call

namespace Controller

-- The class of a call. The learned controller gives none to lock operations, and nobody gives
-- one to a call without the instance that its group requires.
def classOf (c : Controller) (call : Call) : Option Classification :=
  match c with
  | .randomized c => (c.shared.classify call.callee call.instance?).1
  | .learned c => (c.classify call).1

def objectOf (c : Controller) (call : Call) (classification : Classification) : ObjectId :=
  (c.shared.objectFor classification call.instance?).1

-- The plan that governs a call; the randomized controller has none.
def planOf (c : Controller) (call : Call) : Option PlanHandle :=
  match c with
  | .randomized _ => none
  | .learned c => (c.stamp call).2.1

end Controller

-- The access that a call amounts to when it arrives at a controller.
structure Access.Of (c : Controller) (call : Call) (access : Access) : Prop where
  classification : c.classOf call = some access.classification
  thread : access.point.thread = call.thread
  location : access.point.location = call.location
  object : access.point.object = c.objectOf call access.classification
  isWrite : access.point.isWrite = access.classification.isWrite
  plan : access.plan? = c.planOf call

namespace Randomized

theorem approach_class (c : Randomized) (call : Call) :
    (c.approach call).1.map Access.classification = (Controller.randomized c).classOf call := by
  unfold approach identify Controller.classOf
  dsimp only
  generalize c.shared.classify call.callee call.instance? = classified
  obtain ⟨_ | classification, shared⟩ := classified <;> rfl

theorem approach_of (c : Randomized) (call : Call) {access : Access}
    (h : (c.approach call).1 = some access) : access.Of (.randomized c) call := by
  have hclass := c.approach_class call
  rw [h] at hclass
  have hobject := c.shared.objectFor_classify call.callee call.instance? access.classification
  unfold approach identify at h
  generalize c.shared.classify call.callee call.instance? = classified at h hobject
  obtain ⟨_ | classification, shared⟩ := classified
  · cases h
  · obtain rfl := Option.some.inj h
    exact ⟨hclass.symm, rfl, rfl, hobject, rfl, rfl⟩

end Randomized

namespace Learned

theorem classify_answer (c : Learned) (call : Call) :
    (c.classify call).1 =
      if c.lockApis.matchesAny call.callee then none
      else (c.shared.classify call.callee call.instance?).1 := by
  unfold classify
  split <;> rfl

theorem classify_stamp (c : Learned) (call : Call) :
    ((c.stamp call).2.2.classify call).1 = (c.classify call).1 := by
  rw [classify_answer, classify_answer]
  rfl

theorem objectFor_classify (c : Learned) (call : Call) (classification : Classification) :
    ((c.classify call).2.shared.objectFor classification call.instance?).1 =
      (c.shared.objectFor classification call.instance?).1 := by
  unfold classify
  split
  · rfl
  · exact c.shared.objectFor_classify call.callee call.instance? classification

theorem approach_class (c : Learned) (call : Call) :
    (c.approach call).2.1.map Access.classification = (Controller.learned c).classOf call := by
  have hclass : (c.classified call).1 = (Controller.learned c).classOf call :=
    c.classify_stamp call
  have happroached := c.approached call
  generalize c.approach call = approach at happroached ⊢
  cases happroached with
  | noted unclassed => exact unclassed.symm.trans hclass
  | learned classification classed => exact classed.symm.trans hclass

theorem approach_of (c : Learned) (call : Call) {access : Access}
    (h : (c.approach call).2.1 = some access) : access.Of (.learned c) call := by
  have hclass := c.approach_class call
  rw [h] at hclass
  have happroached := c.approached call
  generalize c.approach call = approach at happroached h
  cases happroached with
  | noted unclassed => cases h
  | learned classification classed =>
      obtain rfl := Option.some.inj h
      exact ⟨hclass.symm, rfl, rfl, (c.stamp call).2.2.objectFor_classify call classification, rfl,
        rfl⟩

end Learned

namespace Controller

-- Exactly the calls with a class reach the check.
theorem approach_class (c : Controller) (call : Call) :
    (c.approach call).2.1.map Access.classification = c.classOf call := by
  cases c with
  | randomized c => exact c.approach_class call
  | learned c => exact c.approach_class call

theorem approach_of (c : Controller) (call : Call) {access : Access}
    (h : (c.approach call).2.1 = some access) : access.Of c call := by
  cases c with
  | randomized c => exact c.approach_of call h
  | learned c => exact c.approach_of call h

end Controller

end DelayInjection
