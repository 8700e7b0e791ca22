import DelayInjection.Proofs.Control.Sections

-- What each section can change of the state that both controllers share: traps and their count,
-- the ledger of races, and whether races are raised.

namespace DelayInjection

namespace Shared

-- Two states with the same traps, count, ledger and policy; caches and identities may differ.
structure Alike (before after : Shared) : Prop where
  traps : after.traps = before.traps
  active : after.active = before.active
  ledger : after.ledger = before.ledger
  raise : after.raiseOnRace = before.raiseOnRace

theorem Alike.refl (shared : Shared) : Alike shared shared := ⟨rfl, rfl, rfl, rfl⟩

theorem Alike.trans {a b c : Shared} (hab : Alike a b) (hbc : Alike b c) : Alike a c :=
  ⟨hbc.traps.trans hab.traps, hbc.active.trans hab.active, hbc.ledger.trans hab.ledger,
    hbc.raise.trans hab.raise⟩

theorem alike_classify (shared : Shared) (callee : String) (instance? : Option Address) :
    Alike shared (shared.classify callee instance?).2 := ⟨rfl, rfl, rfl, rfl⟩

theorem alike_objectFor (shared : Shared) (classification : Classification)
    (instance? : Option Address) : Alike shared (shared.objectFor classification instance?).2 := by
  unfold objectFor
  split
  · exact ⟨rfl, rfl, rfl, rfl⟩
  · exact .refl shared

-- Classes do not depend on what is cached, and objects do not depend on classes.
theorem objectFor_classify (shared : Shared) (callee : String) (instance? : Option Address)
    (classification : Classification) :
    ((shared.classify callee instance?).2.objectFor classification instance?).1 =
      (shared.objectFor classification instance?).1 := by
  simp only [classify, objectFor]
  split <;> rfl

-- What a check does to the traps and their count: nothing, or it sets one trap.
inductive Booking (point : Point) (classification : Classification) (before : Shared) :
    Option Trap → Shared → Prop
  | passed : Booking point classification before none before
  | trapped (delayMs : Nat) :
      Booking point classification before (some (before.setTrap point classification delayMs).1)
        { (before.setTrap point classification delayMs).2 with active := before.active.enter }

theorem Booking.ledger_eq {point : Point} {classification : Classification}
    {before after : Shared} {trap? : Option Trap}
    (h : Booking point classification before trap? after) : after.ledger = before.ledger := by
  cases h <;> rfl

theorem Booking.raise_eq {point : Point} {classification : Classification}
    {before after : Shared} {trap? : Option Trap}
    (h : Booking point classification before trap? after) :
    after.raiseOnRace = before.raiseOnRace := by
  cases h <;> rfl

theorem handleConflict_blacklisted {racing : Point} {trap : Trap} (handled : Handled)
    (h : pairOf trap racing ∈ handled.shared.ledger.blacklist) :
    handleConflict racing handled trap = handled := by
  simp [handleConflict, RaceLedger.record, h]

theorem handleConflict_duplicate {racing : Point} {trap : Trap} (handled : Handled)
    (hb : pairOf trap racing ∉ handled.shared.ledger.blacklist)
    (hs : pairOf trap racing ∈ handled.shared.ledger.seen) :
    handleConflict racing handled trap =
      { handled with
        race? := handled.race?.or (some (raceOf trap racing))
        events := handled.events ++ [.duplicateRace trap racing]
        released := handled.released ++ [trap.id] } := by
  simp [handleConflict, RaceLedger.record, hb, hs, raceOf]

theorem handleConflict_new {racing : Point} {trap : Trap} (handled : Handled)
    (hb : pairOf trap racing ∉ handled.shared.ledger.blacklist)
    (hs : pairOf trap racing ∉ handled.shared.ledger.seen) :
    handleConflict racing handled trap =
      { shared :=
          { handled.shared with
            ledger :=
              { handled.shared.ledger with
                seen := handled.shared.ledger.seen ++ [pairOf trap racing] } }
        race? := handled.race?.or (some (raceOf trap racing))
        events := handled.events ++
          [.raceConfirmed (pairOf trap racing), .raceFound trap racing.captureStack]
        released := handled.released ++ [trap.id] } := by
  simp [handleConflict, RaceLedger.record, hb, hs, raceOf]

-- What handling one conflict does, whatever was handled before it.
theorem handleConflict_eq (racing : Point) (handled : Handled) (trap : Trap) :
    handleConflict racing handled trap =
      let one := handleConflict racing { shared := handled.shared } trap
      { shared := one.shared
        race? := handled.race?.or one.race?
        events := handled.events ++ one.events
        released := handled.released ++ one.released } := by
  by_cases hb : pairOf trap racing ∈ handled.shared.ledger.blacklist
  · rw [handleConflict_blacklisted handled hb,
      handleConflict_blacklisted { shared := handled.shared } hb]
    simp
  · by_cases hs : pairOf trap racing ∈ handled.shared.ledger.seen
    · rw [handleConflict_duplicate handled hb hs,
        handleConflict_duplicate { shared := handled.shared } hb hs]
      simp
    · rw [handleConflict_new handled hb hs,
        handleConflict_new { shared := handled.shared } hb hs]
      simp

-- Conflicts that are handled later add to what was handled before.
theorem foldl_handleConflict_eq (racing : Point) (traps : List Trap) (handled : Handled) :
    traps.foldl (handleConflict racing) handled =
      let later := handled.shared.handleConflicts traps racing
      { shared := later.shared
        race? := handled.race?.or later.race?
        events := handled.events ++ later.events
        released := handled.released ++ later.released } := by
  induction traps generalizing handled with
  | nil => simp [handleConflicts]
  | cons trap rest ih =>
      simp only [handleConflicts, List.foldl_cons]
      rw [handleConflict_eq, ih, ih (handleConflict racing { shared := handled.shared } trap)]
      simp only [List.append_assoc, Option.or_assoc]

-- Only the ledger learns of a conflict.
theorem handleConflict_shared (racing : Point) (handled : Handled) (trap : Trap) :
    (handleConflict racing handled trap).shared =
      { handled.shared with ledger := (handled.shared.ledger.record (pairOf trap racing)).2 } := by
  by_cases hb : pairOf trap racing ∈ handled.shared.ledger.blacklist
  · rw [handleConflict_blacklisted handled hb]
    simp [RaceLedger.record, hb]
  · by_cases hs : pairOf trap racing ∈ handled.shared.ledger.seen
    · rw [handleConflict_duplicate handled hb hs]
      simp [RaceLedger.record, hb, hs]
    · rw [handleConflict_new handled hb hs]
      simp [RaceLedger.record, hb, hs]

-- What the ledger makes of a conflict: only a new one is kept there.
inductive Faced (shared : Shared) (racing : Point) (conflict : Trap) (rest : List Trap)
    (race? : Option Race) (trap? : Option Trap) : Output × Stage × Shared → Prop
  | blacklisted (listed : pairOf conflict racing ∈ shared.ledger.blacklist) :
      Faced shared racing conflict rest race? trap?
        ({ handled := [⟨conflict, racing, none, []⟩] }, .handling racing rest race? trap?, shared)
  | duplicate (unlisted : pairOf conflict racing ∉ shared.ledger.blacklist)
      (known : pairOf conflict racing ∈ shared.ledger.seen) :
      Faced shared racing conflict rest race? trap?
        ({}, .settling .suppressing racing conflict rest race? trap?, shared)
  | new (unlisted : pairOf conflict racing ∉ shared.ledger.blacklist)
      (unknown : pairOf conflict racing ∉ shared.ledger.seen) :
      Faced shared racing conflict rest race? trap?
        ({}, .settling .confirming racing conflict rest race? trap?,
          { shared with
            ledger :=
              { shared.ledger with seen := shared.ledger.seen ++ [pairOf conflict racing] } })

section

variable (shared : Shared) (racing : Point) (conflict : Trap) (rest : List Trap)
  (race? : Option Race) (trap? : Option Trap)

theorem faced : shared.Faced racing conflict rest race? trap?
    (shared.face racing conflict rest race? trap?) := by
  unfold face RaceLedger.record
  by_cases hb : pairOf conflict racing ∈ shared.ledger.blacklist
  · simp only [if_pos hb]
    exact .blacklisted hb
  · by_cases hs : pairOf conflict racing ∈ shared.ledger.seen
    · simp only [if_neg hb, if_pos hs]
      exact .duplicate hb hs
    · simp only [if_neg hb, if_neg hs]
      exact .new hb hs

-- A conflict that is only faced is not told of.
theorem face_events : (shared.face racing conflict rest race? trap?).1.events = [] := by
  have hfaced := shared.faced racing conflict rest race? trap?
  generalize shared.face racing conflict rest race? trap? = faced at hfaced ⊢
  cases hfaced <;> rfl

theorem face_shared : (shared.face racing conflict rest race? trap?).2.2 =
    { shared with ledger := (shared.ledger.record (pairOf conflict racing)).2 } := by
  unfold face
  dsimp only
  split <;> rfl

end

theorem handleConflicts_shared (shared : Shared) (conflicts : List Trap) (racing : Point) :
    ∃ seen, (shared.handleConflicts conflicts racing).shared =
      { shared with ledger := { shared.ledger with seen := seen } } := by
  induction conflicts generalizing shared with
  | nil => exact ⟨shared.ledger.seen, rfl⟩
  | cons conflict rest ih =>
      have hfirst := handleConflict_shared racing { shared } conflict
      have hblacklist := shared.ledger.record_blacklist (pairOf conflict racing)
      obtain ⟨seen, hrest⟩ := ih (handleConflict racing { shared } conflict).shared
      refine ⟨seen, ?_⟩
      have hall : shared.handleConflicts (conflict :: rest) racing =
          rest.foldl (handleConflict racing) (handleConflict racing { shared } conflict) := rfl
      rw [hall, foldl_handleConflict_eq]
      dsimp only
      rw [hrest, hfirst]
      dsimp only
      rw [hblacklist]

end Shared

namespace Learned

theorem discoverPair_shared (later : Point) (state : List Event × Learned) (earlier : Point) :
    (discoverPair later state earlier).2.shared = state.2.shared := by
  unfold discoverPair
  split
  · split <;> rfl

-- What every comparison preserves holds after all of them.
theorem discoverPairs_induction {P : List Event × Learned → Prop} (c : Learned) (group : String)
    (point : Point)
    (hstep : ∀ state earlier, P state → P (discoverPair point state earlier))
    (hstart : P ([], { c with accesses := (c.accesses.push group point).2 })) :
    P (c.discoverPairs group point) := by
  have hfold : ∀ (previous : List Point) (state : List Event × Learned),
      P state → P (previous.foldl (discoverPair point) state) := by
    intro previous
    induction previous with
    | nil => exact fun _ h => h
    | cons earlier rest ih => exact fun state h => ih _ (hstep state earlier h)
  exact hfold _ _ hstart

theorem discoverPairs_shared (c : Learned) (group : String) (point : Point) :
    (c.discoverPairs group point).2.shared = c.shared :=
  discoverPairs_induction (P := fun state => state.2.shared = c.shared) c group point
    (fun state earlier h => (discoverPair_shared point state earlier).trans h) rfl

-- What pruning does for a thread: nothing, or it may spend credit of the point that stalled the
-- thread and forget that point, and if it does spend, it takes the pair of the two away.
inductive Pruned (c : Learned) (point : Point) : List Event × Learned → Prop
  | unstalled : Pruned c point ([], c)
  | unpaid (threads : ThreadRecords) : Pruned c point ([], { c with threads })
  | paid (blocker : Point) (credits : Table Nat Int) (threads : ThreadRecords) :
      Pruned c point
        (if (c.danger.remove (.of point.location blocker.location)).1 then
            [.pairPruned point blocker]
          else [],
          { c with
            credits
            threads
            danger := (c.danger.remove (.of point.location blocker.location)).2 })

theorem spendCredit_eq (c : Learned) (point : Point) :
    (∃ credits, c.spendCredit point = (true, { c with credits })) ∨
      c.spendCredit point = (false, c) := by
  unfold spendCredit
  split
  · exact .inl ⟨_, rfl⟩
  · exact .inr rfl

theorem pruned (c : Learned) (point : Point) : c.Pruned point (c.pruneHappensBefore point) := by
  unfold pruneHappensBefore
  cases c.threads.blockedBy point.thread with
  | none => exact .unstalled
  | some blocker =>
      rcases c.spendCredit_eq blocker with ⟨credits, hspent⟩ | hunspent
      · have hpaid := @Pruned.paid c point blocker credits
        simp only [hspent, if_true]
        generalize c.danger.remove (.of point.location blocker.location) = removal at hpaid ⊢
        obtain ⟨removed, danger⟩ := removal
        cases removed with
        | true =>
            simp only [if_true] at hpaid ⊢
            split <;> exact hpaid _
        | false =>
            simp only [Bool.false_eq_true, if_false] at hpaid ⊢
            split <;> exact hpaid _
      · simp only [hunspent, Bool.false_eq_true, if_false]
        split
        · exact .unpaid _
        · exact .unstalled

theorem pruneHappensBefore_shared (c : Learned) (point : Point) :
    (c.pruneHappensBefore point).2.shared = c.shared := by
  have hpruned := c.pruned point
  generalize c.pruneHappensBefore point = pruning at hpruned ⊢
  cases hpruned <;> rfl

theorem learn_shared (c : Learned) (group : String) (point : Point) :
    (c.learn group point).2.shared = c.shared := by
  unfold learn
  split
  · simp only [pruneHappensBefore_shared, discoverPairs_shared]
  · rfl

-- The controller after it was asked for the terms of a trap: at most it has weighed the location
-- and drawn.
inductive Weighed (c : Learned) (location : String) : Learned → Prop
  | passed : Weighed c location c
  | weighed (random : RandomSource) :
      Weighed c location { c with danger := (c.danger.weigh location).2, random }

theorem weighed_trapTerms (c : Learned) (point : Point) (plan? : Option PlanHandle) :
    c.Weighed point.location (c.trapTerms point plan?).2 := by
  unfold trapTerms
  split
  · exact .passed
  · dsimp only
    split
    · exact .weighed c.random
    · split
      · split <;> exact .weighed _
      · exact .weighed _
      · exact .weighed _

theorem Weighed.shared_eq {c after : Learned} {location : String} (h : c.Weighed location after) :
    after.shared = c.shared := by
  cases h <;> rfl

theorem alike_classify (c : Learned) (call : Call) :
    Shared.Alike c.shared (c.classify call).2.shared := by
  unfold classify
  split
  · exact .refl c.shared
  · exact Shared.alike_classify c.shared call.callee call.instance?

-- A call is classified once it is stamped, and a call of a class gets its object.
def classified (c : Learned) (call : Call) : Option Classification × Learned :=
  (c.stamp call).2.2.classify call

def identified (c : Learned) (call : Call) (classification : Classification) : Point × Learned :=
  (c.classified call).2.identify call (c.stamp call).1 classification

def accessed (c : Learned) (call : Call) (classification : Classification) : Access where
  point := (c.identified call classification).1
  classification := classification
  plan? := (c.stamp call).2.1

-- The controller that learns from the access of a call.
def prepared (c : Learned) (call : Call) (classification : Classification) : Learned :=
  let (point, c) := c.identified call classification
  { c with threads := c.threads.setLast point }

def matched (c : Learned) (call : Call) : List Event :=
  if (c.stamp call).1.inPlan then [.planMatched (c.stamp call).1] else []

-- What the approach of a call comes to: without a class it is only noted, with one it is learned
-- from.
inductive Approached (c : Learned) (call : Call) : List Event × Option Access × Learned → Prop
  | noted (unclassed : (c.classified call).1 = none) :
      Approached c call (c.matched call, none,
        { (c.classified call).2 with
          threads := (c.classified call).2.threads.setLast (c.stamp call).1 })
  | learned (classification : Classification)
      (classed : (c.classified call).1 = some classification) :
      Approached c call
        (c.matched call ++ ((c.prepared call classification).learn classification.group.name
            (c.accessed call classification).point).1,
          some (c.accessed call classification),
          ((c.prepared call classification).learn classification.group.name
            (c.accessed call classification).point).2)

theorem approached (c : Learned) (call : Call) : c.Approached call (c.approach call) := by
  unfold approach
  rw [show c.stamp call = ((c.stamp call).1, (c.stamp call).2.1, (c.stamp call).2.2) from rfl]
  dsimp only
  split
  · rename_i after hclassify
    have hclassified : c.classified call = (none, after) := hclassify
    have hnoted := Approached.noted (congrArg Prod.fst hclassified)
    rw [hclassified] at hnoted
    exact hnoted
  · rename_i classification after hclassify
    have hclassified : c.classified call = (some classification, after) := hclassify
    have hlearned := Approached.learned classification (congrArg Prod.fst hclassified)
    simp only [prepared, accessed, identified, hclassified] at hlearned
    exact hlearned

theorem alike_approach (c : Learned) (call : Call) :
    Shared.Alike c.shared (c.approach call).2.2.shared := by
  have hclass : Shared.Alike c.shared (c.classified call).2.shared :=
    (c.stamp call).2.2.alike_classify call
  have happroached := c.approached call
  generalize c.approach call = approach at happroached ⊢
  cases happroached with
  | noted unclassed => exact hclass
  | learned classification classed =>
      dsimp only
      rw [learn_shared]
      exact hclass.trans (Shared.alike_objectFor (c.classified call).2.shared classification _)

-- The conflicts that a call handles: all with a plan that repeats, else the oldest one.
def races (c : Learned) (point : Point) (classification : Classification)
    (plan? : Option PlanHandle) : List Trap :=
  if plan?.any (·.plan.repeats) then c.conflicts point classification
  else (c.conflicts point classification).take 1

-- What a check decides: its races or its terms rule out a trap, or it sets one.
inductive Decided (c : Learned) (point : Point) (classification : Classification)
    (plan? : Option PlanHandle) : List Trap × Option Trap × Learned → Prop
  | raced : Decided c point classification plan? (c.races point classification plan?, none, c)
  | passed : Decided c point classification plan?
      (c.races point classification plan?, none, (c.trapTerms point plan?).2)
  | trapped (delayMs : Nat) (terms : (c.trapTerms point plan?).1 = some delayMs)
      (free : c.races point classification plan? = [] ∨ plan?.any (·.plan.repeats) = true)
      (plans : PlanStore) :
      Decided c point classification plan?
        (c.races point classification plan?,
          some (c.shared.setTrap point classification delayMs).1,
          { (c.trapTerms point plan?).2 with
            shared := { (c.shared.setTrap point classification delayMs).2 with
              active := c.shared.active.enter }
            plans })

theorem decided (c : Learned) (point : Point) (classification : Classification)
    (plan? : Option PlanHandle) :
    c.Decided point classification plan? (c.decide point classification plan?) := by
  have hpassed := @Decided.passed c point classification plan?
  have htrapped := @Decided.trapped c point classification plan?
  have hshared := (c.weighed_trapTerms point plan?).shared_eq
  unfold decide
  generalize c.trapTerms point plan? = terms at hpassed htrapped hshared ⊢
  obtain ⟨delay?, after⟩ := terms
  by_cases hfound : (!(c.races point classification plan?).isEmpty &&
      !plan?.any (·.plan.repeats)) = true
  · rw [races] at hfound
    rw [if_pos hfound]
    exact .raced
  · have hfree : c.races point classification plan? = [] ∨ plan?.any (·.plan.repeats) = true := by
      by_contra hnot
      obtain ⟨hraces, hrepeats⟩ := not_or.mp hnot
      exact hfound (by simp [hraces, hrepeats])
    rw [races] at hfound
    rw [if_neg hfound]
    cases delay? with
    | none => exact hpassed
    | some delayMs =>
        have hset := htrapped delayMs rfl hfree
        rw [← hshared] at hset
        cases plan? with
        | none => exact hset after.plans
        | some handle => exact hset (after.plans.recordInjection handle)

theorem decide_races (c : Learned) (point : Point) (classification : Classification)
    (plan? : Option PlanHandle) :
    (c.decide point classification plan?).1 = c.races point classification plan? := by
  have hdecided := c.decided point classification plan?
  generalize c.decide point classification plan? = decision at hdecided ⊢
  cases hdecided <;> rfl

theorem decide_booking (c : Learned) (point : Point) (classification : Classification)
    (plan? : Option PlanHandle) :
    Shared.Booking point classification c.shared (c.decide point classification plan?).2.1
      (c.decide point classification plan?).2.2.shared := by
  have hdecided := c.decided point classification plan?
  generalize c.decide point classification plan? = decision at hdecided ⊢
  cases hdecided with
  | raced => exact .passed
  | passed =>
      dsimp only
      rw [(c.weighed_trapTerms point plan?).shared_eq]
      exact .passed
  | trapped delayMs terms free plans => exact .trapped delayMs

-- A trap is set beside races only under a plan that repeats.
theorem decide_trapped (c : Learned) (point : Point) (classification : Classification)
    (plan? : Option PlanHandle) {trap : Trap}
    (h : (c.decide point classification plan?).2.1 = some trap) :
    (c.decide point classification plan?).1 = [] ∨ plan?.any (·.plan.repeats) = true := by
  have hdecided := c.decided point classification plan?
  generalize c.decide point classification plan? = decision at hdecided h ⊢
  cases hdecided with
  | raced | passed => cases h
  | trapped delayMs terms free plans => exact free

end Learned

namespace Randomized

theorem alike_approach (c : Randomized) (call : Call) :
    Shared.Alike c.shared (c.approach call).2.shared := by
  have hclass := Shared.alike_classify c.shared call.callee call.instance?
  unfold approach identify
  generalize c.shared.classify call.callee call.instance? = classified at hclass ⊢
  obtain ⟨answer, shared⟩ := classified
  cases answer with
  | none => exact hclass
  | some classification =>
      exact hclass.trans (Shared.alike_objectFor shared classification call.instance?)

theorem tryEnterExclusive_eq (active : ActiveTraps) :
    active.tryEnterExclusive =
      if active.current = 0 then (true, active.enter) else (false, active) := by
  unfold ActiveTraps.tryEnterExclusive ActiveTraps.enter
  split
  · rename_i h
    simp [h]
  · rfl

theorem decide_booking (c : Randomized) (point : Point) (classification : Classification) :
    Shared.Booking point classification c.shared (c.decide point classification).2.1
      (c.decide point classification).2.2.shared := by
  unfold decide
  dsimp only
  split
  · unfold tryTrap
    dsimp only
    split
    · rw [tryEnterExclusive_eq]
      by_cases h : c.shared.active.current = 0
      · simp only [h, if_true]
        exact .trapped _
      · simp only [h, if_false]
        exact .passed
    · exact .passed
  · exact .passed

-- A trap is set without conflicts, in the free slot, and by a write.
theorem decide_trapped (c : Randomized) (point : Point) (classification : Classification)
    {trap : Trap} (h : (c.decide point classification).2.1 = some trap) :
    (c.decide point classification).1 = [] ∧ c.shared.active.current = 0 ∧
      point.isWrite = true := by
  unfold decide at h ⊢
  dsimp only at h ⊢
  split at h
  · rename_i hfree
    obtain ⟨hnone, hwrite⟩ := Bool.and_eq_true_iff.mp hfree
    rw [if_pos hfree]
    refine ⟨List.isEmpty_iff.mp hnone, ?_, hwrite⟩
    unfold tryTrap at h
    dsimp only at h
    split at h
    · rw [tryEnterExclusive_eq] at h
      by_contra hbusy
      simp only [hbusy, if_false] at h
      cases h
    · cases h
  · cases h

end Randomized

namespace Controller

theorem alike_approach (c : Controller) (call : Call) :
    Shared.Alike c.shared (c.approach call).2.2.shared := by
  cases c with
  | randomized c => exact c.alike_approach call
  | learned c => exact c.alike_approach call

theorem check_booking (c : Controller) (access : Access) :
    Shared.Booking access.point access.classification c.shared (c.check access).2.1
      (c.check access).2.2.shared := by
  cases c with
  | randomized c => exact c.decide_booking access.point access.classification
  | learned c => exact c.decide_booking access.point access.classification access.plan?

@[simp] theorem shared_withShared (c : Controller) (change : Shared → Shared) :
    (c.withShared change).shared = change c.shared := by
  cases c <;> rfl

@[simp] theorem shared_afterWait (c : Controller) (wait : Waiting) :
    (c.afterWait wait).shared = c.shared := by
  cases c <;> rfl

theorem alike_forget (c : Controller) (address : Address) :
    Shared.Alike c.shared (c.forget address).2.2.shared := by
  cases c with
  | randomized c => exact ⟨rfl, rfl, rfl, rfl⟩
  | learned c =>
      simp only [forget, Learned.forget]
      split <;> exact ⟨rfl, rfl, rfl, rfl⟩

end Controller

end DelayInjection
