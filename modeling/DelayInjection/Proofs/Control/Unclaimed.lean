import DelayInjection.Proofs.Detector
import DelayInjection.Proofs.Control.Counting

-- Calls that no group claims leave no trace in the randomized controller: a run without them goes
-- as the run with them, up to the counts of global hits and to what the classifier has cached.

namespace DelayInjection

namespace Classifier

variable {start classifier : Classifier}

-- A classifier that gives the answers of another one, whatever was asked before.
def Follows (start classifier : Classifier) : Prop := ∃ callees, Remembers start callees classifier

theorem Follows.groups (h : Follows start classifier) : classifier.groups = start.groups :=
  h.elim fun _ hknown => hknown.groups

theorem Follows.classify (h : Follows start classifier) (callee : String) :
    (classifier.classify callee).1 = start.scan callee ∧
      Follows start (classifier.classify callee).2 := by
  obtain ⟨callees, hknown⟩ := h
  exact ⟨(hknown.classify callee).1, _, (hknown.classify callee).2⟩

-- The class of a call. Groups with instance scope have no claim on a call without instance.
def claim (classifier : Classifier) (call : Call) : Option Classification :=
  (classifier.scan call.callee).filter fun c => !c.requiresInstance || call.instance?.isSome

theorem claim_uncounted (classifier : Classifier) (call : Call) :
    classifier.claim call.uncounted = classifier.claim call := rfl

end Classifier

namespace Shared

theorem Booking.classifier_eq {point : Point} {classification : Classification}
    {before after : Shared} {trap? : Option Trap}
    (h : Booking point classification before trap? after) :
    after.classifier = before.classifier := by
  cases h <;> rfl

end Shared

namespace Randomized

-- The controller after its classifier was asked for a call.
def asked (c : Randomized) (call : Call) : Randomized :=
  { c with
    shared := { c.shared with classifier := (c.shared.classifier.classify call.callee).2 } }

-- A claimed call gets its object and its number.
def accept (c : Randomized) (call : Call) (classification : Classification) : Access × Randomized :=
  let (object, shared) := c.shared.objectFor classification call.instance?
  ({ point := { call.point c.nextSerial with object, isWrite := classification.isWrite },
     classification },
    { c with shared := shared, nextSerial := c.nextSerial + 1 })

theorem accept_uncounted (c : Randomized) (call : Call) (classification : Classification) :
    c.uncounted.accept call.uncounted classification =
      ((c.accept call classification).1.uncounted, (c.accept call classification).2.uncounted) := by
  have hobject := c.shared.objectFor_uncounted classification call.instance?
  simp only [accept, shared_uncounted, Call.uncounted, hobject]
  rfl

theorem accept_classifier (c : Randomized) (call : Call) (classification : Classification) :
    (c.accept call classification).2.shared.classifier = c.shared.classifier := by
  simp only [accept, Shared.objectFor]
  split <;> rfl

section

variable {start : Classifier} {c c' : Randomized} {call call' : Call}

-- A call is classified as by the configured groups, and goes on only if it is claimed.
theorem approach_of_claim {classification : Classification}
    (h : start.Follows c.shared.classifier) (hclaim : start.claim call = some classification) :
    c.approach call =
      (some ((c.asked call).accept call classification).1,
        ((c.asked call).accept call classification).2) := by
  rw [Classifier.claim, ← (h.classify call.callee).1] at hclaim
  simp only [approach, identify, Shared.classify, hclaim]
  rfl

theorem approach_of_unclaimed (h : start.Follows c.shared.classifier)
    (hclaim : start.claim call = none) : c.approach call = (none, c.asked call) := by
  rw [Classifier.claim, ← (h.classify call.callee).1] at hclaim
  simp only [approach, identify, Shared.classify, hclaim]
  rfl

theorem asked_uncounted (h : start.Follows c.shared.classifier) (call : Call) :
    (c.asked call).uncounted = c.uncounted := by
  have hgroups := (h.classify call.callee).2.groups.trans h.groups.symm
  simp only [uncounted, asked, Shared.uncounted, hgroups]

theorem approach_follows (h : start.Follows c.shared.classifier) (call : Call) :
    start.Follows (c.approach call).2.shared.classifier := by
  have hasked : start.Follows (c.asked call).shared.classifier := (h.classify call.callee).2
  cases hclaim : start.claim call with
  | none =>
      rw [approach_of_unclaimed h hclaim]
      exact hasked
  | some classification =>
      rw [approach_of_claim h hclaim, accept_classifier]
      exact hasked

-- Calls that differ in their counts fare alike where the states differ in counts.
theorem approach_alike (h : start.Follows c.shared.classifier)
    (h' : start.Follows c'.shared.classifier) (hsame : c'.uncounted = c.uncounted)
    (hcall : call'.uncounted = call.uncounted) :
    (c'.approach call').1.map Access.uncounted = (c.approach call).1.map Access.uncounted ∧
      (c'.approach call').2.uncounted = (c.approach call).2.uncounted := by
  have hclaims : start.claim call' = start.claim call := by
    rw [← start.claim_uncounted call', hcall, start.claim_uncounted]
  have hasked : (c'.asked call').uncounted = (c.asked call).uncounted := by
    rw [asked_uncounted h', hsame, asked_uncounted h]
  cases hclaim : start.claim call with
  | none =>
      rw [approach_of_unclaimed h hclaim, approach_of_unclaimed h' (hclaims.trans hclaim)]
      exact ⟨rfl, hasked⟩
  | some classification =>
      have haccept := (c.asked call).accept_uncounted call classification
      have haccept' := (c'.asked call').accept_uncounted call' classification
      rw [hasked, hcall, haccept] at haccept'
      obtain ⟨haccess, hstate⟩ := Prod.mk.inj haccept'
      rw [approach_of_claim h hclaim, approach_of_claim h' (hclaims.trans hclaim), Option.map_some,
        Option.map_some, haccess]
      exact ⟨rfl, hstate.symm⟩

end

end Randomized

theorem Stage.checking_uncounted (access? : Option Access) :
    (access?.map Stage.checking).map Stage.uncounted =
      (access?.map Access.uncounted).map Stage.checking := by
  cases access? <;> rfl

namespace Controller

-- A call that is past its approach asks the classifier no more.
theorem advance_classifier (c : Controller) (stage : Stage) :
    (c.advance stage).2.2.shared.classifier = c.shared.classifier := by
  cases stage with
  | checking access => exact (c.check_booking access).classifier_eq
  | handling racing conflicts race? trap? =>
      cases conflicts with
      | nil => cases trap? <;> rfl
      | cons conflict rest =>
          simp only [advance, shared_withShared, Shared.face_shared]
  | settling phase racing conflict rest race? trap? => rfl
  | asleep wait => exact congrArg Shared.classifier (shared_afterWait c wait)
  | awake wait =>
      simp only [advance, shared_withShared]
      rfl
  | removed wait =>
      simp only [advance, shared_withShared]
      rfl

theorem advance_randomized (c : Randomized) (stage : Stage) :
    ∃ next, ((Controller.randomized c).advance stage).2.2 = .randomized next := by
  cases stage with
  | handling racing conflicts race? trap? =>
      cases conflicts with
      | nil => cases trap? <;> exact ⟨_, rfl⟩
      | cons conflict rest => exact ⟨_, rfl⟩
  | _ => exact ⟨_, rfl⟩

end Controller

namespace Interleaving

def Action.uncounted : Action → Action
  | .arrive call => .arrive call.uncounted
  | .advance thread => .advance thread
  | .forget address => .forget address

def uncounted (s : Interleaving) : Interleaving where
  controller := s.controller.uncounted
  stages := s.stages.mapValues Stage.uncounted

-- A state of the randomized controller in which calls are classified as they are at the start.
inductive Classifies (start : Classifier) : Interleaving → Prop
  | randomized (c : Randomized) (stages : Table ThreadId Stage)
      (follows : start.Follows c.shared.classifier) :
      Classifies start { controller := .randomized c, stages }

section

variable {start : Classifier} {s s' t : Interleaving} {action action' : Action} {output : Output}

theorem step_arrive {call : Call} (free : s.stages.get? call.thread = none) :
    s.step (.arrive call) =
      some
        ({ events := (s.controller.approach call).1
           result? := if (s.controller.approach call).2.1.isNone then some (.ok ()) else none },
          { controller := (s.controller.approach call).2.2
            stages := s.stages.set call.thread
              ((s.controller.approach call).2.1.map .checking) }) := by
  have hbusy := (Table.contains_eq_false_iff s.stages call.thread).mpr free
  rw [step, if_neg (by simp [hbusy])]

theorem step_advance {thread : ThreadId} {stage : Stage}
    (current : s.stages.get? thread = some stage) :
    s.step (.advance thread) =
      some ((s.controller.advance stage).1,
        { controller := (s.controller.advance stage).2.2
          stages := s.stages.set thread (s.controller.advance stage).2.1 }) := by
  simp only [step, current]

theorem Classifies.step (h : s.Classifies start) (hstep : s.step action = some (output, s')) :
    s'.Classifies start := by
  obtain ⟨c, stages, hfollows⟩ := h
  cases stepped hstep with
  | arrive call free => exact .randomized (c.approach call).2 _ (c.approach_follows hfollows call)
  | advance thread stage current =>
      obtain ⟨next, hnext⟩ := Controller.advance_randomized c stage
      have hclassifier := (Controller.randomized c).advance_classifier stage
      dsimp only
      rw [hnext] at hclassifier ⊢
      exact .randomized next _ (hclassifier.symm ▸ hfollows)
  | forget address => exact .randomized _ _ hfollows

theorem Classifies.exec {actions : List Action} {outputs : List Output} (h : s.Classifies start)
    (hexec : s.exec actions = some (outputs, s')) : s'.Classifies start :=
  exec_induction (P := fun _ s => s.Classifies start)
    (fun _ _ _ _ _ hs hstep => hs.step hstep) hexec h

theorem uncounted_congr (hcontroller : t.controller.uncounted = s.controller.uncounted)
    (hstages : t.stages.mapValues Stage.uncounted = s.stages.mapValues Stage.uncounted) :
    t.uncounted = s.uncounted := by
  rw [uncounted, uncounted, hcontroller, hstages]

end

section

variable {start : Classifier} {c c' : Randomized} {stages stages' : Table ThreadId Stage}
  {s' : Interleaving} {output : Output}

theorem get?_uncounted
    (hstages : stages'.mapValues Stage.uncounted = stages.mapValues Stage.uncounted)
    (thread : ThreadId) :
    (stages'.get? thread).map Stage.uncounted = (stages.get? thread).map Stage.uncounted := by
  rw [← Table.get?_mapValues, ← Table.get?_mapValues, hstages]

theorem arrive_uncounted (hfollows : start.Follows c.shared.classifier)
    (hfollows' : start.Follows c'.shared.classifier) (hc : c'.uncounted = c.uncounted)
    (hstages : stages'.mapValues Stage.uncounted = stages.mapValues Stage.uncounted)
    {call call' : Call} (hcall : call'.uncounted = call.uncounted)
    (hstep : step { controller := .randomized c, stages } (.arrive call) = some (output, s')) :
    ∃ output' t', step { controller := .randomized c', stages := stages' } (.arrive call') =
        some (output', t') ∧
      output'.uncounted = output.uncounted ∧ t'.uncounted = s'.uncounted := by
  have hthread : call'.thread = call.thread := (Call.mk.inj hcall).1
  obtain ⟨haccess, hleft⟩ := Randomized.approach_alike hfollows hfollows' hc hcall
  have hnone : (c'.approach call').1.isNone = (c.approach call).1.isNone := by
    simpa using congrArg Option.isNone haccess
  cases stepped hstep with
  | arrive _ free =>
      have hfree : stages'.get? call'.thread = none := by
        rw [hthread]
        exact Option.map_eq_none_iff.mp
          ((get?_uncounted hstages call.thread).trans (congrArg _ free))
      refine ⟨_, _, step_arrive hfree, ?_,
        uncounted_congr (congrArg Controller.randomized hleft) ?_⟩
      · simp only [Controller.approach, hnone]
        rfl
      · simp only [Controller.approach, Table.mapValues_set, Stage.checking_uncounted]
        rw [hstages, hthread, haccess]

theorem advance_uncounted (hc : c'.uncounted = c.uncounted)
    (hstages : stages'.mapValues Stage.uncounted = stages.mapValues Stage.uncounted)
    {thread : ThreadId}
    (hstep : step { controller := .randomized c, stages } (.advance thread) =
      some (output, s')) :
    ∃ output' t', step { controller := .randomized c', stages := stages' } (.advance thread) =
        some (output', t') ∧
      output'.uncounted = output.uncounted ∧ t'.uncounted = s'.uncounted := by
  cases stepped hstep with
  | advance _ stage current =>
      obtain ⟨stage', hcurrent, hstage⟩ := Option.map_eq_some_iff.mp
        ((get?_uncounted hstages thread).trans (congrArg _ current))
      have hleft := Controller.advance_uncounted c stage
      have hright := Controller.advance_uncounted c' stage'
      rw [hc, hstage, hleft] at hright
      obtain ⟨houtput, hright⟩ := Prod.mk.inj hright
      obtain ⟨hnext, hcontroller⟩ := Prod.mk.inj hright
      refine ⟨_, _, step_advance hcurrent, houtput.symm, uncounted_congr hcontroller.symm ?_⟩
      simp only [Table.mapValues_set, hnext]
      rw [hstages]

theorem forget_uncounted (hc : c'.uncounted = c.uncounted)
    (hstages : stages'.mapValues Stage.uncounted = stages.mapValues Stage.uncounted)
    {address : Address}
    (hstep : step { controller := .randomized c, stages } (.forget address) =
      some (output, s')) :
    ∃ output' t', step { controller := .randomized c', stages := stages' } (.forget address) =
        some (output', t') ∧
      output'.uncounted = output.uncounted ∧ t'.uncounted = s'.uncounted := by
  cases stepped hstep with
  | forget =>
      have hleft := Controller.forget_uncounted c address
      have hright := Controller.forget_uncounted c' address
      rw [hc, hleft] at hright
      obtain ⟨-, hright⟩ := Prod.mk.inj hright
      exact ⟨_, _, rfl, rfl, uncounted_congr (Prod.mk.inj hright).2.symm hstages⟩

end

section

variable {start : Classifier} {s s' t : Interleaving} {action action' : Action} {output : Output}

-- What a step tells, and what it leaves behind, does not go by counts.
theorem step_uncounted (hs : s.Classifies start) (ht : t.Classifies start)
    (hsame : t.uncounted = s.uncounted) (haction : action'.uncounted = action.uncounted)
    (hstep : s.step action = some (output, s')) :
    ∃ output' t', t.step action' = some (output', t') ∧ output'.uncounted = output.uncounted ∧
      t'.uncounted = s'.uncounted := by
  obtain ⟨c, stages, hfollows⟩ := hs
  obtain ⟨c', stages', hfollows'⟩ := ht
  obtain ⟨hcontroller, hstages⟩ := Interleaving.mk.inj hsame
  have hc : c'.uncounted = c.uncounted := Controller.randomized.inj hcontroller
  cases action with
  | arrive call =>
      cases action' with
      | arrive call' =>
          exact arrive_uncounted hfollows hfollows' hc hstages (Action.arrive.inj haction) hstep
      | _ => cases haction
  | advance thread =>
      cases action' with
      | advance thread' =>
          obtain rfl : thread' = thread := Action.advance.inj haction
          exact advance_uncounted hc hstages hstep
      | _ => cases haction
  | forget address =>
      cases action' with
      | forget address' =>
          obtain rfl : address' = address := Action.forget.inj haction
          exact forget_uncounted hc hstages hstep
      | _ => cases haction

-- An unclaimed call returns at once.
theorem step_unclaimed (hs : s.Classifies start) {call : Call} (hclaim : start.claim call = none)
    (hstep : s.step (.arrive call) = some (output, s')) :
    output = { result? := some (.ok ()) } ∧ s'.uncounted = s.uncounted := by
  obtain ⟨c, stages, hfollows⟩ := hs
  have happroach := Randomized.approach_of_unclaimed hfollows hclaim
  cases stepped hstep with
  | arrive _ free =>
      dsimp only at free
      simp only [Controller.approach, happroach, Option.isNone_none, if_true, Option.map_none]
      refine ⟨trivial, uncounted_congr ?_ ?_⟩
      · exact congrArg Controller.randomized (Randomized.asked_uncounted hfollows call)
      · rw [Table.set, Table.erase_of_get?_eq_none free]

end

end Interleaving

-- A call that no group claims, or one without the instance that its group asks for.
def Call.Irrelevant (groups : List Group) (call : Call) : Prop :=
  ∀ claimed ∈ Group.claimOf groups call.callee,
    claimed.group.isStatic = false ∧ call.instance? = none

instance (groups : List Group) (call : Call) : Decidable (call.Irrelevant groups) :=
  inferInstanceAs (Decidable (∀ claimed ∈ Group.claimOf groups call.callee,
    claimed.group.isStatic = false ∧ call.instance? = none))

namespace Classifier

variable {limit : RegexLimit} {groups : List Group} {classifier : Classifier}

-- Nothing is cached at first, and groups claim what they are configured to claim.
theorem compile_claims (h : compile limit groups = .ok classifier) :
    classifier.cache = .empty ∧ ∀ callee, classifier.scan callee = Group.claimOf groups callee := by
  unfold compile at h
  cases hall : CompiledGroup.compileAll limit [] groups with
  | error e =>
      rw [hall] at h
      cases h
  | ok all =>
      rw [hall] at h
      obtain rfl := Except.ok.inj h
      exact ⟨rfl, CompiledGroup.findSome?_of_compileAll hall⟩

theorem claim_of_irrelevant (h : compile limit groups = .ok classifier) {call : Call}
    (hcall : call.Irrelevant groups) : classifier.claim call = none := by
  rw [claim, (compile_claims h).2, Option.filter_eq_none_iff]
  intro claimed hclaimed
  obtain ⟨hstatic, hinstance⟩ := hcall claimed hclaimed
  simp [Classification.requiresInstance, hstatic, hinstance]

end Classifier

namespace Interleaving

-- What is left of an action in the run without irrelevant calls: nothing of such a call, and of
-- any other action the action itself, with a count of its own.
inductive Left (groups : List Group) : Action → Option Action → Prop
  | dropped {call : Call} (h : call.Irrelevant groups) : Left groups (.arrive call) none
  | kept {action action' : Action} (h : action'.uncounted = action.uncounted) :
      Left groups action (some action')

-- What the actions told of which something is left.
def keptOutputs (pairs : List (Action × Option Action)) (outputs : List Output) : List Output :=
  (pairs.zip outputs).filterMap fun entry => entry.1.2.map fun _ => entry.2

-- Two runs with the same outcome: what each action that is left told (its traps with their numbers,
-- objects and delays, the races it found, and its result), all events in their order, and the last
-- state, up to counts. A call of which nothing is left returned without an error.
structure SameOutcome (pairs : List (Action × Option Action)) (outputs : List Output)
    (s : Interleaving) (outputs' : List Output) (s' : Interleaving) : Prop where
  told : outputs'.map Output.uncounted = (keptOutputs pairs outputs).map Output.uncounted
  silent : ∀ entry ∈ pairs.zip outputs, entry.1.2 = none →
    entry.2 = { result? := some (.ok ()) }
  events : (outputs'.flatMap Output.events).map Event.uncounted =
    (outputs.flatMap Output.events).map Event.uncounted
  state : s'.uncounted = s.uncounted

section

variable {groups : List Group} {start : Classifier} {s s' t : Interleaving}
  {pairs : List (Action × Option Action)} {outputs : List Output}

theorem exec_uncounted (hgroups : ∀ call : Call, call.Irrelevant groups → start.claim call = none)
    (hpairs : ∀ pair ∈ pairs, Left groups pair.1 pair.2) (hs : s.Classifies start)
    (ht : t.Classifies start) (hsame : t.uncounted = s.uncounted)
    (hexec : s.exec (pairs.map Prod.fst) = some (outputs, s')) :
    ∃ outputs' t', t.exec (pairs.filterMap Prod.snd) = some (outputs', t') ∧
      SameOutcome pairs outputs s' outputs' t' := by
  induction pairs generalizing s t outputs with
  | nil =>
      obtain ⟨rfl, rfl⟩ := Prod.mk.inj (Option.some.inj hexec)
      exact ⟨[], t, rfl, rfl, fun entry hm => absurd hm List.not_mem_nil, rfl, hsame⟩
  | cons pair rest ih =>
      obtain ⟨hpair, hrest⟩ := List.forall_mem_cons.mp hpairs
      obtain ⟨output, next, later, hstep, hlater, rfl⟩ := exec_uncons hexec
      obtain ⟨action, left?⟩ := pair
      cases hpair with
      | dropped h =>
          obtain ⟨rfl, hnext⟩ := step_unclaimed hs (hgroups _ h) hstep
          obtain ⟨outputs', t', hexec', hsame'⟩ :=
            ih hrest (hs.step hstep) ht (hsame.trans hnext.symm) hlater
          refine ⟨outputs', t', hexec', hsame'.told, ?_, hsame'.events, hsame'.state⟩
          rintro entry hm hnone
          rcases List.mem_cons.mp hm with rfl | hm
          · rfl
          · exact hsame'.silent entry hm hnone
      | kept h =>
          obtain ⟨output', next', hstep', houtput, hnext⟩ := step_uncounted hs ht hsame h hstep
          obtain ⟨outputs', t', hexec', hsame'⟩ :=
            ih hrest (hs.step hstep) (ht.step hstep') hnext hlater
          refine ⟨output' :: outputs', t', exec_cons hstep' hexec', ?_, ?_, ?_, hsame'.state⟩
          · exact congrArg₂ List.cons houtput hsame'.told
          · rintro entry hm hnone
            rcases List.mem_cons.mp hm with rfl | hm
            · cases hnone
            · exact hsame'.silent entry hm hnone
          · have hevents : output'.events.map Event.uncounted =
                output.events.map Event.uncounted := congrArg Output.events houtput
            rw [List.flatMap_cons, List.flatMap_cons, List.map_append, List.map_append, hevents,
              hsame'.events]

end

-- However calls without a claim are spread over a run of the randomized controller, the run without
-- them is possible and has the same outcome, and it ends at the same place of the random stream and
-- with the same ledger, identities and active traps.
theorem irrelevant_calls_unnoticed (config : RuntimeConfig) (limit : RegexLimit)
    (groups : List Group) (classifier : Classifier)
    (hgroups : Classifier.compile limit groups = .ok classifier)
    (entropy : RandomSource) (blacklist : List LocationPair)
    (pairs : List (Action × Option Action)) (hpairs : ∀ pair ∈ pairs, Left groups pair.1 pair.2)
    (outputs : List Output) (s : Interleaving)
    (hexec : exec { controller := Detector.newRandomized config classifier entropy blacklist }
      (pairs.map Prod.fst) = some (outputs, s)) :
    ∃ outputs' s',
      exec { controller := Detector.newRandomized config classifier entropy blacklist }
        (pairs.filterMap Prod.snd) = some (outputs', s') ∧
      SameOutcome pairs outputs s outputs' s' ∧
      ∃ c c', s.controller = .randomized c ∧ s'.controller = .randomized c' ∧
        c'.random = c.random ∧ c'.shared.ledger = c.shared.ledger ∧
        c'.shared.objects = c.shared.objects ∧ c'.shared.active = c.shared.active := by
  have hcache := (Classifier.compile_claims hgroups).1
  have hstart : Classifies classifier
      { controller := Detector.newRandomized config classifier entropy blacklist } :=
    .randomized _ .empty ⟨[], Classifier.remembers_start hcache⟩
  obtain ⟨outputs', s', hexec', hsame⟩ := exec_uncounted
    (fun _ => Classifier.claim_of_irrelevant hgroups) hpairs hstart hstart rfl hexec
  refine ⟨outputs', s', hexec', hsame, ?_⟩
  obtain ⟨c, stages, -⟩ := hstart.exec hexec
  obtain ⟨c', stages', -⟩ := hstart.exec hexec'
  have hc : c'.uncounted = c.uncounted :=
    Controller.randomized.inj (congrArg Interleaving.controller hsame.state)
  obtain ⟨hshared, -, -, hrandom, -⟩ := Randomized.mk.inj hc
  obtain ⟨-, hledger, -, hobjects, -, hactive⟩ := Shared.mk.inj hshared
  exact ⟨c, c', rfl, rfl, hrandom, hledger, hobjects, hactive⟩

-- Two calls that race, between calls without a claim: one of no group, and one that lacks the
-- instance which its group asks for. The calls that are left are counted anew.
namespace Sample

def groups : List Group := [Sample.group, { name := "map", writeApis := ["Map.Put"] }]

def counted (thread : ThreadId) (globalHits : Int64) : Call :=
  { Sample.call thread with globalHits }

def lacking : Call := { Sample.put 3 with instance? := none, globalHits := 1 }

def idle : Call := { Sample.call 3 with callee := "Main.Idle", globalHits := 3 }

def pairs : List (Action × Option Action) :=
  [(.arrive lacking, none), (.arrive (counted 1 2), some (.arrive (counted 1 1))),
    (.advance 1, some (.advance 1)), (.arrive idle, none),
    (.arrive (counted 2 4), some (.arrive (counted 2 2))),
    (.advance 2, some (.advance 2)), (.advance 2, some (.advance 2)),
    (.advance 2, some (.advance 2)), (.arrive idle, none), (.advance 2, some (.advance 2)),
    (.advance 2, some (.advance 2))]

theorem pairs_left : ∀ pair ∈ pairs, Left groups pair.1 pair.2 := by
  have hlacking : lacking.Irrelevant groups := by decide +kernel
  have hidle : idle.Irrelevant groups := by decide +kernel
  simp only [pairs, List.forall_mem_cons]
  exact ⟨.dropped hlacking, .kept rfl, .kept rfl, .dropped hidle, .kept rfl, .kept rfl, .kept rfl,
    .kept rfl, .dropped hidle, .kept rfl, .kept rfl, fun pair hm => absurd hm List.not_mem_nil⟩

end Sample

theorem irrelevant_calls_unnoticed_race :
    ∃ classifier outputs s outputs' s',
      Classifier.compile Pattern.Sample.limit Sample.groups = .ok classifier ∧
      exec { controller := Detector.newRandomized Sample.randomized classifier Sample.entropy [] }
        (Sample.pairs.map Prod.fst) = some (outputs, s) ∧
      (outputs.flatMap Output.handled).length = 1 ∧
      SameOutcome Sample.pairs outputs s outputs' s' := by
  have hrun : (Classifier.compile Pattern.Sample.limit Sample.groups).toOption.any
      (fun classifier =>
        (exec
          { controller := Detector.newRandomized Sample.randomized classifier Sample.entropy [] }
          (Sample.pairs.map Prod.fst)).any fun told =>
            (told.1.flatMap Output.handled).length == 1) = true := by
    decide +kernel
  obtain ⟨classifier, hclassifier, htold⟩ := (Option.any_eq_true _ _).mp hrun
  obtain ⟨⟨outputs, s⟩, hexec, hone⟩ := (Option.any_eq_true _ _).mp htold
  have hgroups : Classifier.compile Pattern.Sample.limit Sample.groups = .ok classifier := by
    cases hcompile : Classifier.compile Pattern.Sample.limit Sample.groups with
    | error e =>
        rw [hcompile] at hclassifier
        cases hclassifier
    | ok found =>
        rw [hcompile] at hclassifier
        exact congrArg Except.ok (Option.some.inj hclassifier)
  obtain ⟨outputs', s', hexec', hsame, -⟩ := irrelevant_calls_unnoticed Sample.randomized
    Pattern.Sample.limit Sample.groups classifier hgroups Sample.entropy [] Sample.pairs
    Sample.pairs_left outputs s hexec
  exact ⟨classifier, outputs, s, outputs', s', hgroups, hexec, beq_iff_eq.mp hone, hsame⟩

end Interleaving

end DelayInjection
