import DelayInjection.Proofs.Control.Settings
import DelayInjection.Proofs.Danger
import DelayInjection.Proofs.History.AccessLog

-- What the sections of the learned controller do to what it has learned: the accesses that it
-- keeps, and the dangerous pairs.

namespace DelayInjection

namespace Event

-- The two points of a pair that was found dangerous.
def found? : Event → Option (Point × Point)
  | .dangerousPair earlier later => some (earlier, later)
  | _ => none

def found (events : List Event) : List (Point × Point) := events.filterMap found?

theorem found_append (first second : List Event) :
    found (first ++ second) = found first ++ found second :=
  List.filterMap_append

end Event

def pairFound (points : Point × Point) : LocationPair := .of points.1.location points.2.location

namespace Learned

-- What stays as it is set up, and the accesses that are kept.
def memory (c : Learned) : LearnedParams × PatternSet × AccessLog :=
  (c.params, c.lockApis, c.accesses)

-- Every live pair was live before, or was told as found.
def Accounted (live : List LocationPair) (events : List Event) (c : Learned) : Prop :=
  ∀ pair ∈ c.danger.pairs, pair ∈ live ∨ pair ∈ (Event.found events).map pairFound

section

variable (c : Learned)

-- Candidates depend on the parameters and on the races of earlier runs.
theorem isCandidate_congr {c c' : Learned} (hparams : c'.params = c.params)
    (hshared : c'.shared.ledger = c.shared.ledger) (earlier later : Point) :
    c'.isCandidate earlier later = c.isCandidate earlier later := by
  rw [isCandidate, isCandidate, hparams, hshared]

theorem memory_discoverPair (later : Point) (state : List Event × Learned) (earlier : Point) :
    (discoverPair later state earlier).2.memory = state.2.memory := by
  unfold discoverPair
  dsimp only
  split <;> rfl

theorem isCandidate_discoverPair (later : Point) (state : List Event × Learned)
    (earlier first second : Point) :
    (discoverPair later state earlier).2.isCandidate first second =
      state.2.isCandidate first second := by
  apply isCandidate_congr
  · exact congrArg Prod.fst (memory_discoverPair later state earlier)
  · rw [discoverPair_shared]

theorem found_discoverPair (later : Point) (state : List Event × Learned) (earlier : Point)
    {points : Point × Point}
    (h : points ∈ Event.found (discoverPair later state earlier).1) :
    points ∈ Event.found state.1 ∨
      points = (earlier, later) ∧ state.2.isCandidate earlier later = true := by
  unfold discoverPair at h
  dsimp only at h
  split at h
  · rename_i hcandidate
    dsimp only at h
    split at h
    · rw [Event.found_append] at h
      rcases List.mem_append.mp h with hold | hnew
      · exact .inl hold
      · exact .inr ⟨List.mem_singleton.mp hnew, hcandidate⟩
    · exact .inl h
  · exact .inl h

theorem accounted_discoverPair {live : List LocationPair} (later : Point)
    {state : List Event × Learned} (h : state.2.Accounted live state.1) (earlier : Point) :
    (discoverPair later state earlier).2.Accounted live (discoverPair later state earlier).1 := by
  intro pair hm
  unfold discoverPair at hm ⊢
  dsimp only at hm ⊢
  split at hm
  · rename_i hcandidate
    rw [if_pos hcandidate]
    dsimp only at hm ⊢
    rcases (DangerTracker.mem_pairs_consider_iff _ _ _).mp hm with hold | ⟨haccepted, rfl⟩
    · refine (h pair hold).imp_right fun htold => ?_
      split
      · rw [Event.found_append, List.map_append]
        exact List.mem_append_left _ htold
      · exact htold
    · rw [if_pos haccepted, Event.found_append, List.map_append]
      exact .inr (List.mem_append_right _ (List.mem_singleton.mpr rfl))
  · rename_i hother
    rw [if_neg hother]
    exact h pair hm

-- What comes of comparing an access with some earlier ones: what is found is among these.
theorem foldl_discoverPair {live : List LocationPair} (later : Point) (previous : List Point)
    (state : List Event × Learned) (h : state.2.Accounted live state.1) :
    let compared := previous.foldl (discoverPair later) state
    compared.2.memory = state.2.memory ∧ compared.2.Accounted live compared.1 ∧
      ∀ points ∈ Event.found compared.1, points ∈ Event.found state.1 ∨
        points.1 ∈ previous ∧ points.2 = later ∧
          state.2.isCandidate points.1 later = true := by
  induction previous generalizing state with
  | nil => exact ⟨rfl, h, fun points hm => .inl hm⟩
  | cons earlier rest ih =>
      obtain ⟨hmemory, haccounted, hfound⟩ := ih _ (accounted_discoverPair later h earlier)
      rw [List.foldl_cons]
      refine ⟨hmemory.trans (memory_discoverPair later state earlier), haccounted, ?_⟩
      intro points hm
      rcases hfound points hm with hold | ⟨hrest, hlater, hcandidate⟩
      · rcases found_discoverPair later state earlier hold with hbefore | ⟨rfl, hcandidate⟩
        · exact .inl hbefore
        · exact .inr ⟨List.mem_cons_self, rfl, hcandidate⟩
      · rw [isCandidate_discoverPair] at hcandidate
        exact .inr ⟨List.mem_cons_of_mem _ hrest, hlater, hcandidate⟩

theorem discoverPairs_learned (group : String) (point : Point) :
    let discovered := c.discoverPairs group point
    discovered.2.memory = (c.params, c.lockApis, (c.accesses.push group point).2) ∧
      discovered.2.Accounted c.danger.pairs discovered.1 ∧
      ∀ points ∈ Event.found discovered.1, points.1 ∈ c.accesses.queue group point.object ∧
        points.2 = point ∧ c.isCandidate points.1 point = true := by
  have hstart : Accounted c.danger.pairs []
      { c with accesses := (c.accesses.push group point).2 } := fun pair hm => .inl hm
  obtain ⟨hmemory, haccounted, hfound⟩ :=
    foldl_discoverPair point (c.accesses.queue group point.object) ([], _) hstart
  exact ⟨hmemory, haccounted, fun points hm => (hfound points hm).resolve_left List.not_mem_nil⟩

-- Pruning takes pairs away and finds none.
theorem pruneHappensBefore_learned (point : Point) :
    let pruned := c.pruneHappensBefore point
    pruned.2.memory = c.memory ∧ pruned.2.danger.pairs ⊆ c.danger.pairs ∧
      Event.found pruned.1 = [] := by
  have hpruned := c.pruned point
  generalize c.pruneHappensBefore point = pruning at hpruned ⊢
  cases hpruned with
  | unstalled | unpaid threads => exact ⟨rfl, List.Subset.refl _, rfl⟩
  | paid blocker credits threads =>
      refine ⟨rfl, c.danger.pairs_remove_subset _, ?_⟩
      dsimp only
      split <;> rfl

-- What learning from an access of a class does, when it is learned from at all.
theorem learn_learned (group : String) (point : Point) :
    let learned := c.learn group point
    learned.2.memory =
        (c.params, c.lockApis,
          if c.isLearning point then (c.accesses.push group point).2 else c.accesses) ∧
      learned.2.Accounted c.danger.pairs learned.1 ∧
      ∀ points ∈ Event.found learned.1, c.isLearning point = true ∧
        points.1 ∈ c.accesses.queue group point.object ∧ points.2 = point ∧
          c.isCandidate points.1 point = true := by
  unfold learn
  by_cases hlearning : c.isLearning point = true
  · obtain ⟨hmemory, haccounted, hfound⟩ := c.discoverPairs_learned group point
    obtain ⟨hkept, hpairs, hnone⟩ :=
      (c.discoverPairs group point).2.pruneHappensBefore_learned point
    simp only [hlearning, if_true, Event.found_append, hnone, List.append_nil]
    refine ⟨hkept.trans hmemory, ?_, fun points hm => ⟨trivial, hfound points hm⟩⟩
    intro pair hm
    rw [Event.found_append, hnone, List.append_nil]
    exact haccounted pair (hpairs hm)
  · rw [if_neg hlearning, if_neg hlearning]
    exact ⟨rfl, fun pair hm => .inl hm, fun points hm => absurd hm List.not_mem_nil⟩

theorem memory_classify (call : Call) : (c.classify call).2.memory = c.memory := by
  unfold classify
  split <;> rfl

theorem danger_classify (call : Call) : (c.classify call).2.danger = c.danger := by
  unfold classify
  split <;> rfl

-- Accesses that no plan governs are learned from, if anything is.
def learnsFrom (access : Access) : Bool := access.plan?.isNone && c.params.detectDangerousPairs

-- What a section leaves behind of an access that it learns from, if there is one: the access is
-- kept, and pairs are found among it and those kept before.
structure Heard (access? : Option Access) (events : List Event) (after : Learned) : Prop where
  params : after.params = c.params
  lockApis : after.lockApis = c.lockApis
  accesses : after.accesses =
    match access?.filter c.learnsFrom with
    | none => c.accesses
    | some access => (c.accesses.push access.classification.group.name access.point).2
  accounted : after.Accounted c.danger.pairs events
  found : ∀ points ∈ Event.found events, ∃ access ∈ access?, c.learnsFrom access = true ∧
    points.1 ∈ c.accesses.queue access.classification.group.name access.point.object ∧
      points.2 = access.point ∧ c.isCandidate points.1 access.point = true

theorem Heard.nothing {c after : Learned} {events : List Event} (memory : after.memory = c.memory)
    (pairs : after.danger.pairs ⊆ c.danger.pairs) (found : Event.found events = []) :
    c.Heard none events after := by
  obtain ⟨hparams, hrest⟩ := Prod.mk.inj memory
  obtain ⟨hlockApis, haccesses⟩ := Prod.mk.inj hrest
  refine ⟨hparams, hlockApis, haccesses, fun pair hm => .inl (pairs hm), ?_⟩
  intro points hm
  rw [found] at hm
  cases hm

-- An access is learned from by a controller that knows what the one before the call knew.
theorem learn_heard {c prepared : Learned} {access : Access} {matched : List Event}
    (memory : prepared.memory = c.memory) (danger : prepared.danger = c.danger)
    (ledger : prepared.shared.ledger = c.shared.ledger)
    (inPlan : access.point.inPlan = access.plan?.isSome) (told : Event.found matched = []) :
    let learned := prepared.learn access.classification.group.name access.point
    c.Heard (some access) (matched ++ learned.1) learned.2 := by
  obtain ⟨hparams, hrest⟩ := Prod.mk.inj memory
  obtain ⟨hlockApis, haccesses⟩ := Prod.mk.inj hrest
  obtain ⟨hmemory, haccounted, hfound⟩ :=
    prepared.learn_learned access.classification.group.name access.point
  have hlearning : prepared.isLearning access.point = c.learnsFrom access := by
    rw [isLearning, learnsFrom, inPlan, hparams]
    cases access.plan? <;> rfl
  rw [hparams, hlockApis, haccesses, hlearning] at hmemory
  rw [hlearning, haccesses] at hfound
  rw [danger] at haccounted
  dsimp only
  generalize prepared.learn access.classification.group.name access.point = learned
    at hmemory haccounted hfound ⊢
  have hall : Event.found (matched ++ learned.1) = Event.found learned.1 := by
    rw [Event.found_append, told, List.nil_append]
  obtain ⟨hparams', hrest'⟩ := Prod.mk.inj hmemory
  obtain ⟨hlockApis', haccesses'⟩ := Prod.mk.inj hrest'
  refine ⟨hparams', hlockApis', ?_, ?_, ?_⟩
  · rw [haccesses', Option.filter_some]
    split <;> rfl
  · intro pair hm
    rw [hall]
    exact haccounted pair hm
  · intro points hm
    rw [hall] at hm
    obtain ⟨hlearns, hkept, hlater, hcandidate⟩ := hfound points hm
    rw [isCandidate_congr hparams ledger] at hcandidate
    exact ⟨access, rfl, hlearns, hkept, hlater, hcandidate⟩

theorem approach_heard (call : Call) :
    c.Heard (c.approach call).2.1 (c.approach call).1 (c.approach call).2.2 := by
  have hmatched : Event.found (c.matched call) = [] := by
    unfold matched
    split <;> rfl
  have hmemory : (c.classified call).2.memory = c.memory := (c.stamp call).2.2.memory_classify call
  have hdanger : (c.classified call).2.danger = c.danger := (c.stamp call).2.2.danger_classify call
  have halike : Shared.Alike c.shared (c.classified call).2.shared :=
    (c.stamp call).2.2.alike_classify call
  have happroached := c.approached call
  generalize c.approach call = approach at happroached ⊢
  cases happroached with
  | noted unclassed =>
      have hpairs : (c.classified call).2.danger.pairs ⊆ c.danger.pairs := by
        rw [hdanger]
        exact List.Subset.refl _
      exact .nothing hmemory hpairs hmatched
  | learned classification classed =>
      have hidentify := Shared.alike_objectFor (c.classified call).2.shared classification
        call.instance?
      have hledger : (c.prepared call classification).shared.ledger = c.shared.ledger :=
        hidentify.ledger.trans halike.ledger
      exact @learn_heard c (c.prepared call classification) (c.accessed call classification) _
        hmemory hdanger hledger rfl hmatched

variable {c} in
theorem Weighed.learned {after : Learned} {location : String} (h : c.Weighed location after) :
    after.memory = c.memory ∧ after.danger.pairs = c.danger.pairs := by
  cases h with
  | passed => exact ⟨rfl, rfl⟩
  | weighed random => exact ⟨rfl, c.danger.pairs_weigh location⟩

theorem decide_learned (point : Point) (classification : Classification)
    (plan? : Option PlanHandle) :
    (c.decide point classification plan?).2.2.memory = c.memory ∧
      (c.decide point classification plan?).2.2.danger.pairs = c.danger.pairs := by
  have hterms := (c.weighed_trapTerms point plan?).learned
  have hdecided := c.decided point classification plan?
  generalize c.decide point classification plan? = decision at hdecided ⊢
  cases hdecided with
  | raced => exact ⟨rfl, rfl⟩
  | passed | trapped delayMs terms free plans => exact hterms

end

theorem advance_heard (c : Learned) (stage : Stage) :
    ∃ after, ((Controller.learned c).advance stage).2.2 = .learned after ∧
      c.Heard none ((Controller.learned c).advance stage).1.events after := by
  have hsame : ∀ {after : Learned} {events : List Event}, after.memory = c.memory →
      after.danger.pairs = c.danger.pairs → Event.found events = [] → c.Heard none events after :=
    fun memory pairs found => .nothing memory (by rw [pairs]; exact List.Subset.refl _) found
  cases stage with
  | checking access =>
      obtain ⟨hmemory, hpairs⟩ :=
        c.decide_learned access.point access.classification access.plan?
      exact ⟨_, rfl, hsame hmemory hpairs rfl⟩
  | handling racing conflicts race? trap? =>
      cases conflicts with
      | cons conflict rest =>
          have hfaced := c.shared.face_events racing conflict rest race? trap?
          exact ⟨_, rfl, hsame rfl rfl (congrArg Event.found hfaced)⟩
      | nil => cases trap? <;> exact ⟨_, rfl, hsame rfl rfl rfl⟩
  | settling phase racing conflict rest race? trap? =>
      cases phase <;> exact ⟨_, rfl, hsame rfl rfl rfl⟩
  | asleep wait | awake wait | removed wait => exact ⟨_, rfl, hsame rfl rfl rfl⟩

-- What becomes of the knowledge of a controller in one action: it hears of an access, or it
-- drops what is kept of an object.
inductive Changed (c : Learned) (access? : Option Access) (events : List Event)
    (after : Learned) : Prop
  | heard (heard : c.Heard access? events after)
  | forgot (id : ObjectId) (silent : access? = none) (params : after.params = c.params)
      (lockApis : after.lockApis = c.lockApis)
      (accesses : after.accesses = (c.accesses.forget id).2) (danger : after.danger = c.danger)
      (found : Event.found events = [])

theorem forget_changed (c : Learned) (address : Address) :
    c.Changed none (c.forget address).2.1 (c.forget address).2.2 := by
  simp only [forget]
  split
  · exact .heard (.nothing rfl (List.Subset.refl _) rfl)
  · rename_i id _
    exact .forgot id rfl rfl rfl rfl rfl rfl

end Learned

namespace Interleaving

-- The access that an action begins with, if it is a call of a class.
def accessOf? (s : Interleaving) : Action → Option Access
  | .arrive call => (s.controller.approach call).2.1
  | _ => none

theorem step_changed {s s' : Interleaving} {action : Action} {output : Output} {c : Learned}
    (hc : s.controller = .learned c) (h : s.step action = some (output, s')) :
    ∃ after, s'.controller = .learned after ∧
      c.Changed (s.accessOf? action) output.events after := by
  cases stepped h with
  | arrive call _ =>
      simp only [accessOf?, hc]
      exact ⟨_, rfl, .heard (c.approach_heard call)⟩
  | advance thread stage _ =>
      obtain ⟨after, hafter, hheard⟩ := c.advance_heard stage
      simp only [accessOf?, hc]
      exact ⟨after, hafter, .heard hheard⟩
  | forget address =>
      simp only [accessOf?, hc]
      exact ⟨_, rfl, c.forget_changed address⟩

end Interleaving

end DelayInjection
