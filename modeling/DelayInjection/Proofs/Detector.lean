import DelayInjection.Detector
import DelayInjection.Proofs.Control.Bookkeeping
import DelayInjection.Proofs.Pattern

-- The controllers that runs start from, and those among them that a detector is built with.

namespace DelayInjection

-- A controller in which no call was made, for any configuration and any blacklist.
inductive Controller.Fresh : Controller → Prop
  | randomized (config : RuntimeConfig) (classifier : Classifier) (entropy : RandomSource)
      (blacklist : List LocationPair) :
      Fresh (Detector.newRandomized config classifier entropy blacklist)
  | learned (config : RuntimeConfig) (classifier : Classifier) (entropy : RandomSource)
      (plans : PlanStore) (blacklist : List LocationPair) (lockApis : PatternSet) :
      Fresh (Detector.newLearned config classifier entropy plans blacklist lockApis)

namespace Controller

theorem Fresh.traps_eq {c : Controller} (h : c.Fresh) : c.shared.traps = {} := by
  cases h <;> rfl

theorem Fresh.active_eq {c : Controller} (h : c.Fresh) : c.shared.active = {} := by
  cases h <;> rfl

theorem Fresh.seen_eq {c : Controller} (h : c.Fresh) : c.shared.ledger.seen = [] := by
  cases h <;> rfl

theorem Fresh.booked {c : Controller} (h : c.Fresh) :
    Interleaving.Booked { controller := c } where
  sound := by
    rw [h.traps_eq]
    exact TrapStore.Sound.empty
  filed := by
    rw [h.traps_eq]
    exact List.Perm.refl _
  counted := by
    rw [h.active_eq]
    rfl
  fits _ _ hget := by cases hget

end Controller

namespace Detector

-- What a configuration makes of a controller when the detector is built; only the learned one
-- takes over a blacklist.
inductive Builds (config : RuntimeConfig) : Controller → Prop
  | randomized (classifier : Classifier) (entropy : RandomSource) :
      Builds config (newRandomized config classifier entropy [])
  | learned (classifier : Classifier) (entropy : RandomSource) (plans : PlanStore)
      (blacklist : List LocationPair) (lockApis : PatternSet) :
      Builds config (newLearned config classifier entropy plans blacklist lockApis)

theorem Builds.fresh {config : RuntimeConfig} {c : Controller} (h : Builds config c) :
    c.Fresh := by
  cases h with
  | randomized classifier entropy => exact .randomized config classifier entropy []
  | learned classifier entropy plans blacklist lockApis =>
      exact .learned config classifier entropy plans blacklist lockApis

theorem Builds.raiseOnRace_eq {config : RuntimeConfig} {c : Controller} (h : Builds config c) :
    c.shared.raiseOnRace = config.raiseOnRace := by
  cases h <;> rfl

theorem Builds.blacklist_eq {config : RuntimeConfig} {c : Controller} (h : Builds config c)
    (hr : c.algorithm = .randomized) : c.shared.ledger.blacklist = [] := by
  cases h with
  | randomized classifier entropy => rfl
  | learned classifier entropy plans blacklist lockApis => cases hr

theorem startLearned_builds {config : RuntimeConfig} {classifier : Classifier} {host : Host}
    {sinks : List Sink} {files files' : LoggedDisk} {session : Session}
    (h : startLearned config classifier host sinks files = (.ok session, files')) :
    session.run.parked = .empty ∧ Builds config session.run.controller := by
  unfold startLearned at h
  dsimp only at h
  split at h
  · cases h
  · split at h
    · cases h
    · split at h
      · cases h
      · obtain ⟨he, -⟩ := Prod.mk.inj h
        obtain rfl := Except.ok.inj he
        exact ⟨rfl, .learned _ _ _ _ _⟩

-- Every session of a detector that was built starts with a fresh controller and nobody parked.
theorem build_builds {config : RuntimeConfig} {logEvents : Bool} {extra : List Sink} {host : Host}
    {files files' : LoggedDisk} {detector : Detector} {session : Session}
    (h : build config logEvents extra host files = (.ok detector, files'))
    (hs : detector.session? = some session) :
    session.run.parked = .empty ∧ Builds config session.run.controller := by
  unfold build at h
  split at h
  · cases h
  · split at h
    · obtain ⟨he, -⟩ := Prod.mk.inj h
      obtain rfl := Except.ok.inj he
      cases hs
    · split at h
      · cases h
      · rename_i classifier _
        generalize openReport config host.process files = opened at h
        obtain ⟨reports, opened⟩ := opened
        dsimp only at h
        by_cases hr : config.algorithm = .randomized
        · simp only [hr, if_true] at h
          obtain ⟨he, -⟩ := Prod.mk.inj h
          obtain rfl := Except.ok.inj he
          obtain rfl := Option.some.inj hs
          exact ⟨rfl, .randomized classifier host.entropy⟩
        · simp only [hr, if_false] at h
          generalize hstart : startLearned _ _ _ _ _ = started at h
          obtain ⟨_ | started, left⟩ := started
          · cases h
          · obtain ⟨he, -⟩ := Prod.mk.inj h
            obtain rfl := Except.ok.inj he
            obtain rfl := Option.some.inj hs
            exact startLearned_builds hstart

end Detector

-- A small setup: one static group with one API that writes, so that any two calls conflict.
namespace Sample

def group : Group := { name := "list", isStatic := true, writeApis := ["List.Add"] }

def classifier : Classifier :=
  (Detector.compileGroups Pattern.Sample.limit [group]).toOption.getD { groups := [] }

-- Draws that always choose to delay.
def entropy : RandomSource := { stream := fun _ => 0 }

def host : Host where
  process := { name := "sample", pid := 1, executionId := "0" }
  entropy := entropy
  limit := Pattern.Sample.limit

def randomized : RuntimeConfig :=
  { RuntimeConfig.ofRandomized {} with raiseOnRace := true, groups := [group] }

def learned : RuntimeConfig :=
  { RuntimeConfig.ofLearned
      { LearnedParams.inMemory with plans := [{ callee := "List.Add", repeats := true }] } with
    raiseOnRace := true
    groups := [group] }

def call (thread : ThreadId) : Call :=
  { thread, caller := "Main", callee := "List.Add", offset := 1 }

-- A group with instance scope under no plan: its accesses are learned from, and the first one is
-- trapped because nothing is known of it.
def instances : Classifier :=
  (Detector.compileGroups Pattern.Sample.limit
    [{ name := "map", writeApis := ["Map.Put"] }]).toOption.getD { groups := [] }

def tracked : Controller :=
  Detector.newLearned (RuntimeConfig.ofLearned .inMemory) instances entropy {} [] {}

def put (thread : ThreadId) : Call :=
  { thread, caller := "Main", callee := "Map.Put", offset := 1, instance? := some 64 }

end Sample

end DelayInjection
