import DelayInjection.Proofs.Control.Runs

-- The learned controller cut once more, into single operations. What a call learns is no longer
-- one section: between any two looks at a table, a counter or the danger tracker other threads may
-- do anything. The sections of a call are the runs of its operations without interruption.

namespace DelayInjection

-- Where a call stands between two operations, up to its check and from its waking up; in between
-- it stands where its sections do.
inductive Position
  | stamped (call : Call) (point : Point) (plan? : Option PlanHandle)
  | classified (call : Call) (point : Point) (plan? : Option PlanHandle)
      (class? : Option Classification)
  | identified (access : Access)
  | keeping (access : Access)
  | comparing (access : Access) (earlier : List Point)
  | spending (access : Access) (blocker : Point)
  | removing (access : Access) (blocker : Point)
  | looking (access : Access) (blocker : Point)
  | clearing (access : Access)
  | staged (stage : Stage)
  | granted (wait : Waiting)

namespace Learned

-- The next operation of a call: what it tells, and where the call stands after it unless it
-- returns.
def operate (c : Learned) : Position → Output × Option Position × Learned
  | .stamped call point plan? =>
      let (class?, c) := c.classify call
      ({}, some (.classified call point plan? class?), c)
  | .classified _ point _ none =>
      ({ result? := some (.ok ()) }, none, { c with threads := c.threads.setLast point })
  | .classified call point plan? (some classification) =>
      let (point, c) := c.identify call point classification
      ({}, some (.identified { point, classification, plan? }), c)
  | .identified access =>
      let c := { c with threads := c.threads.setLast access.point }
      ({}, some (if c.isLearning access.point then .keeping access else .staged (.checking access)),
        c)
  | .keeping access =>
      let (previous, accesses) := c.accesses.push access.classification.group.name access.point
      ({}, some (.comparing access previous), { c with accesses := accesses })
  | .comparing access (earlier :: rest) =>
      let (events, c) := discoverPair access.point ([], c) earlier
      ({ events }, some (.comparing access rest), c)
  | .comparing access [] =>
      match c.threads.blockedBy access.point.thread with
      | none => ({}, some (.staged (.checking access)), c)
      | some blocker => ({}, some (.spending access blocker), c)
  | .spending access blocker =>
      let (spent, c) := c.spendCredit blocker
      ({}, some (if spent then .removing access blocker else .looking access blocker), c)
  | .removing access blocker =>
      let (removed, danger) := c.danger.remove (.of access.point.location blocker.location)
      ({ events := if removed then [.pairPruned access.point blocker] else [] },
        some (.looking access blocker), { c with danger := danger })
  | .looking access blocker =>
      ({}, some (if c.credit blocker ≤ 0 then .clearing access else .staged (.checking access)), c)
  | .clearing access =>
      ({}, some (.staged (.checking access)),
        { c with threads := c.threads.clearBlockedBy access.point.thread })
  | .staged (.checking access) =>
      let (races, trap?, c) := c.decide access.point access.classification access.plan?
      ({}, some (.staged (.handling access.point races none trap?)), c)
  | .staged (.handling racing (conflict :: rest) race? trap?) =>
      let (output, stage, shared) := c.shared.face racing conflict rest race? trap?
      (output, some (.staged stage), { c with shared := shared })
  | .staged (.handling _ [] race? (some trap)) =>
      ({ events := [.trapSet trap] }, some (.staged (.asleep { trap, race? })), c)
  | .staged (.handling _ [] race? none) => ({ result? := some (c.shared.finish race?) }, none, c)
  | .staged (.settling phase racing conflict rest race? trap?) =>
      let (output, stage) := phase.settle racing conflict rest race? trap?
      (output, some (.staged stage), c)
  | .staged (.asleep wait) =>
      ({}, some (.granted wait), c.grantCredit wait.trap.point c.params.inferSize.toInt)
  | .granted wait =>
      ({}, some (.staged (.awake wait)),
        { c with
          threads := (c.threads.markBlockedNear wait.trap.point (stallLimit c.params)).2 })
  | .staged (.awake wait) =>
      ({}, some (.staged (.removed wait)), { c with shared := c.shared.removeTrap wait.trap })
  | .staged (.removed wait) =>
      let c := { c with shared := c.shared.leave }
      ({ result? := some (c.shared.finish wait.race?) }, none, c)

end Learned

namespace Learned

-- Operations of one call that nothing interrupts, and what they tell.
inductive Continues : Learned → Option Position → List Event → Learned → Option Position → Prop
  | done (c : Learned) (position? : Option Position) : Continues c position? [] c position?
  | next {c last : Learned} {position : Position} {position? : Option Position}
      {events : List Event}
      (rest : Continues (c.operate position).2.2 (c.operate position).2.1 events last position?) :
      Continues c (some position) ((c.operate position).1.events ++ events) last position?

section

variable {c middle last : Learned} {position? middle? last? : Option Position}
  {events more : List Event}

theorem Continues.trans (h : Continues c position? events middle middle?)
    (h' : Continues middle middle? more last last?) :
    Continues c position? (events ++ more) last last? := by
  induction h with
  | done c position? => exact h'
  | next rest ih =>
      rw [List.append_assoc]
      exact .next (ih h')

theorem Continues.one (c : Learned) (position : Position) :
    Continues c (some position) (c.operate position).1.events (c.operate position).2.2
      (c.operate position).2.1 := by
  have h := Continues.next (.done (c.operate position).2.2 (c.operate position).2.1)
  rwa [List.append_nil] at h

-- What is told before the comparisons does not matter to them.
theorem discoverPair_eq (later : Point) (events : List Event) (c : Learned) (earlier : Point) :
    discoverPair later (events, c) earlier =
      (events ++ (discoverPair later ([], c) earlier).1,
        (discoverPair later ([], c) earlier).2) := by
  unfold discoverPair
  dsimp only
  split
  · dsimp only
    split <;> simp
  · simp

theorem continues_comparing (c : Learned) (access : Access) (earlier : List Point)
    (before : List Event) :
    ∃ events, (earlier.foldl (discoverPair access.point) (before, c)).1 = before ++ events ∧
      Continues c (some (.comparing access earlier)) events
        (earlier.foldl (discoverPair access.point) (before, c)).2
        (some (.comparing access [])) := by
  induction earlier generalizing c before with
  | nil => exact ⟨[], by simp, .done c _⟩
  | cons first rest ih =>
      rw [List.foldl_cons, discoverPair_eq]
      obtain ⟨events, htold, hrest⟩ := ih (discoverPair access.point ([], c) first).2
        (before ++ (discoverPair access.point ([], c) first).1)
      refine ⟨(discoverPair access.point ([], c) first).1 ++ events, ?_, .next hrest⟩
      rw [htold, List.append_assoc]

-- Credit is looked at after every attempt to spend it.
theorem continues_looking (c : Learned) (access : Access) (blocker : Point) :
    Continues c (some (.looking access blocker)) []
      (if c.credit blocker ≤ 0 then
        { c with threads := c.threads.clearBlockedBy access.point.thread } else c)
      (some (.staged (.checking access))) := by
  have hlook := Continues.one c (.looking access blocker)
  simp only [operate] at hlook
  split at hlook <;> rename_i hcredit
  · rw [if_pos hcredit]
    exact hlook.trans (.one c (.clearing access))
  · rw [if_neg hcredit]
    exact hlook

theorem continues_pruning (c : Learned) (access : Access) :
    Continues c (some (.comparing access [])) (c.pruneHappensBefore access.point).1
      (c.pruneHappensBefore access.point).2 (some (.staged (.checking access))) := by
  have hrecall := Continues.one c (.comparing access [])
  simp only [operate] at hrecall
  unfold pruneHappensBefore
  cases hblocked : c.threads.blockedBy access.point.thread with
  | none =>
      rw [hblocked] at hrecall
      exact hrecall
  | some blocker =>
      rw [hblocked] at hrecall
      have hspend := Continues.one c (.spending access blocker)
      simp only [operate] at hspend
      dsimp only at hrecall ⊢
      generalize c.spendCredit blocker = spending at hspend ⊢
      obtain ⟨spent, after⟩ := spending
      cases spent with
      | false => exact hrecall.trans (hspend.trans (continues_looking after access blocker))
      | true =>
          have hremove := Continues.one after (.removing access blocker)
          simp only [operate] at hremove
          dsimp only at hspend ⊢
          simp only [if_true] at hspend ⊢
          generalize after.danger.remove (.of access.point.location blocker.location) = removal
            at hremove ⊢
          have hall := hrecall.trans (hspend.trans (hremove.trans
            (continues_looking { after with danger := removal.2 } access blocker)))
          simpa using hall

theorem continues_learning (c : Learned) (access : Access) :
    let noted := { c with threads := c.threads.setLast access.point }
    Continues c (some (.identified access))
      (noted.learn access.classification.group.name access.point).1
      (noted.learn access.classification.group.name access.point).2
      (some (.staged (.checking access))) := by
  intro noted
  have hnote : Continues c (some (.identified access)) [] noted
      (some (if noted.isLearning access.point then .keeping access
        else .staged (.checking access))) := .one c (.identified access)
  unfold learn
  split
  · rename_i hlearning
    rw [if_pos hlearning] at hnote
    have hkeep := Continues.one noted (.keeping access)
    obtain ⟨events, hfound, hcompare⟩ := continues_comparing
      { noted with
        accesses := (noted.accesses.push access.classification.group.name access.point).2 }
      access (noted.accesses.push access.classification.group.name access.point).1 []
    have hprune := continues_pruning
      (noted.discoverPairs access.classification.group.name access.point).2 access
    have hall := hnote.trans (hkeep.trans (hcompare.trans hprune))
    rw [List.nil_append] at hfound
    rw [← hfound] at hall
    exact hall
  · rename_i hother
    rw [if_neg hother] at hnote
    exact hnote

-- What a call does before its check is what its operations do one after the other.
theorem continues_approach (c : Learned) (call : Call) :
    ∃ events, (c.approach call).1 =
        (if (c.stamp call).1.inPlan then [.planMatched (c.stamp call).1] else []) ++ events ∧
      Continues (c.stamp call).2.2
        (some (.stamped call (c.stamp call).1 (c.stamp call).2.1)) events (c.approach call).2.2
        ((c.approach call).2.1.map fun access => .staged (.checking access)) := by
  unfold approach
  generalize c.stamp call = stamped
  obtain ⟨point, plan?, stamped⟩ := stamped
  have hclassify := Continues.one stamped (.stamped call point plan?)
  simp only [operate] at hclassify
  dsimp only at hclassify ⊢
  generalize stamped.classify call = classified at hclassify ⊢
  obtain ⟨_ | classification, prepared⟩ := classified
  · exact ⟨[], by simp, hclassify.trans (.one prepared (.classified call point plan? none))⟩
  · have hidentify :=
      Continues.one prepared (.classified call point plan? (some classification))
    simp only [operate] at hidentify
    dsimp only at hclassify hidentify ⊢
    generalize prepared.identify call point classification = found at hidentify ⊢
    obtain ⟨point, prepared⟩ := found
    exact ⟨_, rfl, hclassify.trans (hidentify.trans
      (continues_learning prepared { point, classification, plan? }))⟩

-- A section past the approach is one operation, but for the waking up of a thread.
theorem continues_advance (c : Learned) (stage : Stage) :
    ∃ after, ((Controller.learned c).advance stage).2.2 = .learned after ∧
      Continues c (some (.staged stage)) ((Controller.learned c).advance stage).1.events after
        (((Controller.learned c).advance stage).2.1.map .staged) := by
  cases stage with
  | handling racing conflicts race? trap? =>
      cases conflicts with
      | cons conflict rest => exact ⟨_, rfl, .one c _⟩
      | nil => cases trap? <;> exact ⟨c, rfl, .one c _⟩
  | asleep wait =>
      have hgrant := Continues.one c (.staged (.asleep wait))
      exact ⟨_, rfl, hgrant.trans (.one _ (.granted wait))⟩
  | settling phase racing conflict rest race? trap? => exact ⟨c, rfl, .one c _⟩
  | checking access | awake wait | removed wait => exact ⟨_, rfl, .one c _⟩

end

end Learned

-- A learned controller and the calls that are under way, cut into operations.
structure Weave where
  controller : Learned
  positions : Table ThreadId Position := .empty

namespace Weave

open Interleaving (Action)

def step (s : Weave) : Action → Option (Output × Weave)
  | .arrive call =>
      if s.positions.contains call.thread then none
      else
        let (point, plan?, controller) := s.controller.stamp call
        some
          ({ events := if point.inPlan then [.planMatched point] else [] },
            { controller
              positions := s.positions.set call.thread (some (.stamped call point plan?)) })
  | .advance thread =>
      match s.positions.get? thread with
      | none => none
      | some position =>
          let (output, position?, controller) := s.controller.operate position
          some (output, { controller, positions := s.positions.set thread position? })
  | .forget address =>
      let (_, events, controller) := s.controller.forget address
      some ({ events }, { s with controller := controller })

-- What an action that is possible does.
inductive Stepped (s : Weave) : Action → Output → Weave → Prop
  | arrive (call : Call) (free : s.positions.get? call.thread = none) :
      Stepped s (.arrive call)
        { events := if (s.controller.stamp call).1.inPlan then
            [.planMatched (s.controller.stamp call).1] else [] }
        { controller := (s.controller.stamp call).2.2
          positions := s.positions.set call.thread
            (some (.stamped call (s.controller.stamp call).1 (s.controller.stamp call).2.1)) }
  | advance (thread : ThreadId) (position : Position)
      (current : s.positions.get? thread = some position) :
      Stepped s (.advance thread) (s.controller.operate position).1
        { controller := (s.controller.operate position).2.2
          positions := s.positions.set thread (s.controller.operate position).2.1 }
  | forget (address : Address) :
      Stepped s (.forget address) { events := (s.controller.forget address).2.1 }
        { s with controller := (s.controller.forget address).2.2 }

theorem stepped {s s' : Weave} {action : Action} {output : Output}
    (h : s.step action = some (output, s')) : Stepped s action output s' := by
  cases action with
  | arrive call =>
      simp only [step] at h
      split at h
      · cases h
      · rename_i hbusy
        obtain ⟨rfl, rfl⟩ := Prod.mk.inj (Option.some.inj h)
        exact .arrive call ((Table.contains_eq_false_iff _ _).mp (by simpa using hbusy))
  | advance thread =>
      simp only [step] at h
      split at h
      · cases h
      · rename_i position hposition
        obtain ⟨rfl, rfl⟩ := Prod.mk.inj (Option.some.inj h)
        exact .advance thread position hposition
  | forget address =>
      obtain ⟨rfl, rfl⟩ := Prod.mk.inj (Option.some.inj h)
      exact .forget address

-- One step of a run.
structure Step where
  before : Weave
  action : Action
  output : Output
  after : Weave

def exec (s : Weave) : List Action → Option (List Step × Weave)
  | [] => some ([], s)
  | action :: rest =>
      match s.step action with
      | none => none
      | some (output, next) =>
          (next.exec rest).map fun (steps, last) => (⟨s, action, output, next⟩ :: steps, last)

theorem exec_cons {s next last : Weave} {action : Action} {rest : List Action} {output : Output}
    {steps : List Step} (hstep : s.step action = some (output, next))
    (hrest : next.exec rest = some (steps, last)) :
    s.exec (action :: rest) = some (⟨s, action, output, next⟩ :: steps, last) := by
  rw [exec, hstep]
  simp only [hrest, Option.map_some]

theorem exec_uncons {s last : Weave} {action : Action} {rest : List Action} {steps : List Step}
    (h : s.exec (action :: rest) = some (steps, last)) :
    ∃ output next later, s.step action = some (output, next) ∧
      next.exec rest = some (later, last) ∧ steps = ⟨s, action, output, next⟩ :: later := by
  rw [exec] at h
  split at h
  · cases h
  · rename_i output next hnext
    obtain ⟨⟨later, last⟩, hrest, he⟩ := Option.map_eq_some_iff.mp h
    obtain ⟨rfl, rfl⟩ := Prod.mk.inj he
    exact ⟨output, next, later, hnext, hrest, rfl⟩

-- What every step preserves holds after every run, of the steps so far and the state.
theorem exec_induction {P : List Step → Weave → Prop}
    (hstep : ∀ past s action output s', P past s → s.step action = some (output, s') →
      P (past ++ [⟨s, action, output, s'⟩]) s')
    {s s' : Weave} {actions : List Action} {past steps : List Step}
    (h : s.exec actions = some (steps, s')) (hstart : P past s) : P (past ++ steps) s' := by
  induction actions generalizing s past steps with
  | nil =>
      obtain ⟨rfl, rfl⟩ := Prod.mk.inj (Option.some.inj h)
      simpa using hstart
  | cons action rest ih =>
      obtain ⟨output, next, later, hnext, hrest, rfl⟩ := exec_uncons h
      have hlast := ih hrest (hstep past s action output next hstart hnext)
      simpa using hlast

theorem exec_append {s s' s'' : Weave} {first second : List Action} {before after : List Step}
    (hfirst : s.exec first = some (before, s')) (hsecond : s'.exec second = some (after, s'')) :
    s.exec (first ++ second) = some (before ++ after, s'') := by
  induction first generalizing s before with
  | nil =>
      obtain ⟨rfl, rfl⟩ := Prod.mk.inj (Option.some.inj hfirst)
      exact hsecond
  | cons action rest ih =>
      obtain ⟨output, next, later, hnext, hrest, rfl⟩ := exec_uncons hfirst
      exact exec_cons hnext (ih hrest)

def told (steps : List Step) : List Event := steps.flatMap (·.output.events)

theorem told_append (first second : List Step) :
    told (first ++ second) = told first ++ told second :=
  List.flatMap_append

section

variable {c last : Learned} {position? last? : Option Position} {events : List Event}

-- Operations that nothing interrupts are a run.
theorem exec_continues (h : c.Continues position? events last last?)
    (positions : Table ThreadId Position) (thread : ThreadId) :
    ∃ actions steps, exec { controller := c, positions := positions.set thread position? } actions =
        some (steps, { controller := last, positions := positions.set thread last? }) ∧
      told steps = events := by
  induction h with
  | done c position? => exact ⟨[], [], rfl, rfl⟩
  | @next c last position position? events rest ih =>
      obtain ⟨actions, steps, hexec, htold⟩ := ih
      have hstep : step { controller := c, positions := positions.set thread (some position) }
          (.advance thread) = some ((c.operate position).1,
            { controller := (c.operate position).2.2
              positions := positions.set thread (c.operate position).2.1 }) := by
        simp only [step, Table.get?_set, if_true, Table.set_set]
      exact ⟨.advance thread :: actions, _, exec_cons hstep hexec, by rw [← htold]; rfl⟩

end

-- The calls under way at the stages of their sections.
def ofStages (c : Learned) (stages : Table ThreadId Stage) : Weave :=
  { controller := c, positions := stages.mapValues .staged }

theorem exec_of_step {s s' : Interleaving} {action : Action} {output : Output} {c : Learned}
    (hc : s.controller = .learned c) (h : s.step action = some (output, s')) :
    ∃ after actions steps, s'.controller = .learned after ∧
      (ofStages c s.stages).exec actions = some (steps, ofStages after s'.stages) ∧
      told steps = output.events := by
  cases Interleaving.stepped h with
  | arrive call free =>
      obtain ⟨events, htold, hcontinues⟩ := c.continues_approach call
      obtain ⟨actions, steps, hexec, hevents⟩ :=
        exec_continues hcontinues (s.stages.mapValues .staged) call.thread
      have hfree : (s.stages.mapValues Position.staged).contains call.thread = false := by
        rw [Table.contains_eq_false_iff, Table.get?_mapValues, free]
        rfl
      have hstep : (ofStages c s.stages).step (.arrive call) = some
          ({ events := if (c.stamp call).1.inPlan then [.planMatched (c.stamp call).1] else [] },
            { controller := (c.stamp call).2.2
              positions := (s.stages.mapValues .staged).set call.thread
                (some (.stamped call (c.stamp call).1 (c.stamp call).2.1)) }) := by
        simp only [step, ofStages, hfree, Bool.false_eq_true, if_false]
        rfl
      have hlast : ofStages (c.approach call).2.2
          (s.stages.set call.thread ((c.approach call).2.1.map .checking)) =
            { controller := (c.approach call).2.2
              positions := (s.stages.mapValues .staged).set call.thread
                ((c.approach call).2.1.map fun access => .staged (.checking access)) } := by
        rw [ofStages, Table.mapValues_set, Option.map_map]
        rfl
      have hrun := exec_cons hstep hexec
      rw [← hlast] at hrun
      simp only [hc]
      exact ⟨_, _, _, rfl, hrun, (congrArg (_ ++ ·) hevents).trans htold.symm⟩
  | advance thread stage current =>
      obtain ⟨after, hafter, hcontinues⟩ := c.continues_advance stage
      obtain ⟨actions, steps, hexec, hevents⟩ :=
        exec_continues hcontinues (s.stages.mapValues .staged) thread
      have hself : (s.stages.mapValues Position.staged).set thread (some (.staged stage)) =
          s.stages.mapValues .staged := by
        have hkept := (s.stages.mapValues Position.staged).set_get? thread
        rwa [Table.get?_mapValues, current] at hkept
      simp only [hc]
      refine ⟨after, actions, steps, hafter, ?_, hevents⟩
      rw [hself] at hexec
      rw [ofStages, hexec, ofStages, Table.mapValues_set]
  | forget address =>
      simp only [hc]
      exact ⟨_, [.forget address], [_], rfl, rfl, List.flatMap_singleton _ _⟩

-- Every interleaving of sections of the learned controller is one of their operations.
theorem exec_of_interleaving {s s' : Interleaving} {actions : List Action}
    {outputs : List Output} {c : Learned} (hc : s.controller = .learned c)
    (h : s.exec actions = some (outputs, s')) :
    ∃ after fine steps, s'.controller = .learned after ∧
      (ofStages c s.stages).exec fine = some (steps, ofStages after s'.stages) ∧
      told steps = outputs.flatMap Output.events := by
  induction actions generalizing s c outputs with
  | nil =>
      obtain ⟨rfl, rfl⟩ := Prod.mk.inj (Option.some.inj h)
      exact ⟨c, [], [], hc, rfl, rfl⟩
  | cons action rest ih =>
      obtain ⟨output, next, later, hnext, hrest, rfl⟩ := Interleaving.exec_uncons h
      obtain ⟨middle, first, steps, hmiddle, hexec, htold⟩ := exec_of_step hc hnext
      obtain ⟨after, second, more, hafter, hexec', htold'⟩ := ih hmiddle hrest
      refine ⟨after, first ++ second, steps ++ more, hafter, exec_append hexec hexec', ?_⟩
      rw [told_append, htold, htold', List.flatMap_cons]

end Weave

end DelayInjection
