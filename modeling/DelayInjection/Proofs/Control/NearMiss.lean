import DelayInjection.Control.Recorder
import DelayInjection.Proofs.Control.Learning
import DelayInjection.Proofs.Detector
import DelayInjection.Proofs.LocationPair
import DelayInjection.Proofs.Persist.Distinct

-- Where dangerous pairs come from. Whatever is live or recorded for the next run goes back to two
-- accesses of the run that came close to racing.

namespace DelayInjection

-- Whether an access is one that is kept for an object of a group: no plan governs it.
def Access.isKeptFor (group : String) (object : ObjectId) (access : Access) : Bool :=
  access.plan?.isNone && access.classification.group.name == group && access.point.object == object

-- Two accesses of a run that came close to racing: the earlier one was among the newest accesses
-- to the object of the later one when that arrived.
structure NearMiss (params : LearnedParams) (lockApis : PatternSet) (blacklist : List LocationPair)
    (run : List Access) (earlier later : Access) : Prop where
  detected : params.detectDangerousPairs = true
  recent : ∃ past future, run = past ++ later :: future ∧
    earlier ∈ AccessLog.newest (max params.lastAccessWindow.toNat 1)
      (past.filter (·.isKeptFor later.classification.group.name later.point.object))
  unplanned : earlier.plan? = none ∧ later.plan? = none
  unlocked : lockApis.matchesAny earlier.point.callee = false ∧
    lockApis.matchesAny later.point.callee = false
  group : earlier.classification.group.name = later.classification.group.name
  object : earlier.point.object = later.point.object
  threads : earlier.point.thread ≠ later.point.thread
  write : earlier.point.isWrite = true ∨ later.point.isWrite = true
  near : later.point.time - earlier.point.time ≤ params.nearMissWindowMs.toNat * 1000000
  busy : 1 < earlier.point.activeThreads ∨ 1 < later.point.activeThreads
  unlisted : LocationPair.of earlier.point.location later.point.location ∉ blacklist

namespace NearMiss

variable {params : LearnedParams} {lockApis : PatternSet} {blacklist : List LocationPair}
  {run : List Access} {earlier later : Access}

-- What happens later does not undo it.
theorem append (h : NearMiss params lockApis blacklist run earlier later) (more : List Access) :
    NearMiss params lockApis blacklist (run ++ more) earlier later := by
  obtain ⟨past, future, hrun, hnewest⟩ := h.recent
  refine { h with recent := ⟨past, future ++ more, ?_, hnewest⟩ }
  rw [hrun, List.append_assoc, List.cons_append]

end NearMiss

namespace AccessLog

-- Every queue is an end of the accesses of a run that are kept for its object, no longer than the
-- window.
def Remembers (log : AccessLog) (run : List Access) : Prop :=
  ∀ group object, ∃ kept, kept <:+ run.filter (·.isKeptFor group object) ∧
    kept.length ≤ log.window ∧ log.queue group object = kept.map Access.point

section

variable {log : AccessLog} {run : List Access}

-- The access goes to its queue, and the oldest one may have to leave.
theorem Remembers.push (h : log.Remembers run) {access : Access} (hfree : access.plan? = none) :
    (log.push access.classification.group.name access.point).2.Remembers (run ++ [access]) := by
  intro group object
  obtain ⟨kept, ⟨front, hfront⟩, hlength, hqueue⟩ := h group object
  rw [queue_push, List.filter_append]
  by_cases hkey : access.classification.group.name = group ∧ access.point.object = object
  · obtain ⟨rfl, rfl⟩ := hkey
    have hfor : access.isKeptFor access.classification.group.name access.point.object = true := by
      simp [Access.isKeptFor, hfree]
    refine ⟨newest log.window (kept ++ [access]), ?_, length_newest_le _ _, ?_⟩
    · refine (newest_isSuffix _ _).trans ⟨front, ?_⟩
      rw [← List.append_assoc, hfront]
      simp [hfor]
    · rw [if_pos ⟨rfl, rfl⟩, hqueue, newest_map, List.map_append]
      rfl
  · have hother : access.isKeptFor group object = false := by
      simpa [Access.isKeptFor, hfree] using hkey
    rw [if_neg hkey]
    exact ⟨kept, ⟨front, by simpa [hother] using hfront⟩, hlength, hqueue⟩

-- An access under a plan goes to no queue.
theorem Remembers.skip (h : log.Remembers run) {access : Access}
    (hplanned : access.plan?.isNone = false) : log.Remembers (run ++ [access]) := by
  intro group object
  have hother : access.isKeptFor group object = false := by simp [Access.isKeptFor, hplanned]
  rw [List.filter_append]
  simpa [hother] using h group object

theorem Remembers.forget (h : log.Remembers run) (id : ObjectId) :
    (log.forget id).2.Remembers run := by
  intro group object
  rw [queue_forget]
  split
  · exact ⟨[], List.nil_suffix, Nat.zero_le _, rfl⟩
  · exact h group object

theorem remembers_nil (window : Nat) : (ofWindow window).Remembers [] :=
  fun _ _ => ⟨[], List.nil_suffix, Nat.zero_le _, rfl⟩

-- What is kept is among the newest accesses.
theorem Remembers.mem_newest (h : log.Remembers run) {group : String} {object : ObjectId}
    {point : Point} (hm : point ∈ log.queue group object) :
    ∃ access ∈ newest log.window (run.filter (·.isKeptFor group object)),
      access.point = point := by
  obtain ⟨kept, hend, hlength, hqueue⟩ := h group object
  rw [hqueue] at hm
  obtain ⟨access, hkept, hpoint⟩ := List.mem_map.mp hm
  exact ⟨access, (isSuffix_newest hend hlength).subset hkept, hpoint⟩

end

end AccessLog

namespace Learned

theorem isCandidate_iff (c : Learned) (earlier later : Point) :
    c.isCandidate earlier later = true ↔
      earlier.thread ≠ later.thread ∧ (earlier.isWrite = true ∨ later.isWrite = true) ∧
        later.time - earlier.time ≤ c.params.nearMissWindowMs.toNat * 1000000 ∧
        (1 < earlier.activeThreads ∨ 1 < later.activeThreads) ∧
        LocationPair.of earlier.location later.location ∉ c.shared.ledger.blacklist := by
  simp [isCandidate, RaceLedger.isBlacklisted, and_assoc]

-- An access has the callee and the time of its call.
theorem approach_stamped (c : Learned) (call : Call) {access : Access}
    (h : (c.approach call).2.1 = some access) :
    access.point.callee = call.callee ∧ access.point.time = call.time := by
  have happroached := c.approached call
  generalize c.approach call = approach at happroached h
  cases happroached with
  | noted unclassed => cases h
  | learned classification classed =>
      obtain rfl := Option.some.inj h
      exact ⟨rfl, rfl⟩

-- An access is never one of a lock operation.
theorem approach_unlocked (c : Learned) (call : Call) {access : Access}
    (h : (c.approach call).2.1 = some access) :
    c.lockApis.matchesAny access.point.callee = false := by
  have hclass := c.approach_class call
  rw [h, Option.map_some, Controller.classOf, classify_answer] at hclass
  rw [(c.approach_stamped call h).1]
  split at hclass
  · cases hclass
  · rename_i hunlocked
    simpa using hunlocked

-- What a controller knows after the accesses of a run so far, of which it told some events.
structure Watched (params : LearnedParams) (lockApis : PatternSet) (blacklist : List LocationPair)
    (run : List Access) (events : List Event) (c : Learned) : Prop where
  params_eq : c.params = params
  lockApis_eq : c.lockApis = lockApis
  blacklist_eq : c.shared.ledger.blacklist = blacklist
  window : c.accesses.window = max params.lastAccessWindow.toNat 1
  unlocked : ∀ access ∈ run, lockApis.matchesAny access.point.callee = false
  kept : params.detectDangerousPairs = true → c.accesses.Remembers run
  live : c.Accounted [] events
  found : ∀ points ∈ Event.found events, ∃ earlier later,
    NearMiss params lockApis blacklist run earlier later ∧ points = (earlier.point, later.point)

section

variable {params : LearnedParams} {lockApis : PatternSet} {blacklist : List LocationPair}
  {run : List Access} {events : List Event} {c : Learned}

-- A pair that is found is a near miss of the access that has just arrived.
theorem Watched.nearMiss (h : c.Watched params lockApis blacklist run events) {access : Access}
    (hunlocked : lockApis.matchesAny access.point.callee = false)
    (hlearns : c.learnsFrom access = true) {point : Point}
    (hkept : point ∈ c.accesses.queue access.classification.group.name access.point.object)
    (hcandidate : c.isCandidate point access.point = true) :
    ∃ earlier, NearMiss params lockApis blacklist (run ++ [access]) earlier access ∧
      point = earlier.point := by
  obtain ⟨hplan, hdetects⟩ := Bool.and_eq_true_iff.mp hlearns
  rw [h.params_eq] at hdetects
  obtain ⟨earlier, hnewest, rfl⟩ := (h.kept hdetects).mem_newest hkept
  obtain ⟨hthreads, hwrite, hnear, hbusy, hunlisted⟩ := (c.isCandidate_iff _ _).mp hcandidate
  rw [h.params_eq] at hnear
  rw [h.blacklist_eq] at hunlisted
  obtain ⟨hrun, hfor⟩ := List.mem_filter.mp ((AccessLog.newest_isSuffix _ _).subset hnewest)
  rw [h.window] at hnewest
  obtain ⟨hfor, hobject⟩ := Bool.and_eq_true_iff.mp hfor
  obtain ⟨hfree, hgroup⟩ := Bool.and_eq_true_iff.mp hfor
  exact ⟨earlier,
    { detected := hdetects
      recent := ⟨run, [], rfl, hnewest⟩
      unplanned := ⟨Option.isNone_iff_eq_none.mp hfree, Option.isNone_iff_eq_none.mp hplan⟩
      unlocked := ⟨h.unlocked earlier hrun, hunlocked⟩
      group := beq_iff_eq.mp hgroup
      object := beq_iff_eq.mp hobject
      threads := hthreads
      write := hwrite
      near := hnear
      busy := hbusy
      unlisted := hunlisted }, rfl⟩

theorem Watched.heard (h : c.Watched params lockApis blacklist run events)
    {access? : Option Access} {told : List Event} {after : Learned}
    (hheard : c.Heard access? told after)
    (hblacklist : after.shared.ledger.blacklist = c.shared.ledger.blacklist)
    (hunlocked : ∀ access ∈ access?, lockApis.matchesAny access.point.callee = false) :
    after.Watched params lockApis blacklist (run ++ access?.toList) (events ++ told) := by
  refine ⟨hheard.params.trans h.params_eq, hheard.lockApis.trans h.lockApis_eq,
    hblacklist.trans h.blacklist_eq, ?_, ?_, ?_, ?_, ?_⟩
  · rw [hheard.accesses, ← h.window]
    split <;> rfl
  · intro access hm
    rcases List.mem_append.mp hm with hold | hnew
    · exact h.unlocked access hold
    · exact hunlocked access (Option.mem_toList.mp hnew)
  · intro hdetects
    have hkept := h.kept hdetects
    rw [← h.params_eq] at hdetects
    rw [hheard.accesses]
    cases access? with
    | none => simpa using hkept
    | some access =>
        rw [Option.filter_some]
        by_cases hfree : access.plan?.isNone = true
        · have hlearns : c.learnsFrom access = true := by rw [learnsFrom, hfree, hdetects]; rfl
          rw [if_pos hlearns]
          exact hkept.push (Option.isNone_iff_eq_none.mp hfree)
        · have hplanned := Bool.eq_false_iff.mpr hfree
          have hlearns : ¬ c.learnsFrom access = true := by
            rw [learnsFrom, hplanned]
            exact Bool.false_ne_true
          rw [if_neg hlearns]
          exact hkept.skip hplanned
  · intro pair hm
    rw [Event.found_append, List.map_append, List.mem_append]
    rcases hheard.accounted pair hm with hold | hnew
    · exact (h.live pair hold).imp_right .inl
    · exact .inr (.inr hnew)
  · intro points hm
    rw [Event.found_append] at hm
    rcases List.mem_append.mp hm with hold | hnew
    · obtain ⟨earlier, later, hmiss, he⟩ := h.found points hold
      exact ⟨earlier, later, hmiss.append _, he⟩
    · obtain ⟨access, haccess, hlearns, hkept, hlater, hcandidate⟩ := hheard.found points hnew
      obtain rfl := Option.mem_def.mp haccess
      obtain ⟨earlier, hmiss, hpoint⟩ :=
        h.nearMiss (hunlocked access rfl) hlearns hkept hcandidate
      exact ⟨earlier, access, hmiss, Prod.ext hpoint hlater⟩

theorem Watched.forgot (h : c.Watched params lockApis blacklist run events) {id : ObjectId}
    {told : List Event} {after : Learned} (hparams : after.params = c.params)
    (hlockApis : after.lockApis = c.lockApis)
    (haccesses : after.accesses = (c.accesses.forget id).2) (hdanger : after.danger = c.danger)
    (hfound : Event.found told = [])
    (hblacklist : after.shared.ledger.blacklist = c.shared.ledger.blacklist) :
    after.Watched params lockApis blacklist run (events ++ told) := by
  have hall : Event.found (events ++ told) = Event.found events := by
    rw [Event.found_append, hfound, List.append_nil]
  refine ⟨hparams.trans h.params_eq, hlockApis.trans h.lockApis_eq,
    hblacklist.trans h.blacklist_eq, ?_, h.unlocked, ?_, ?_, ?_⟩
  · rw [haccesses, ← h.window]
    rfl
  · intro hdetects
    rw [haccesses]
    exact (h.kept hdetects).forget id
  · intro pair hm
    rw [hall]
    rw [hdanger] at hm
    exact h.live pair hm
  · rw [hall]
    exact h.found

end

end Learned

namespace PlanLog

theorem flush_seen (log : PlanLog) (files : LoggedDisk) : (log.flush files).1.seen = log.seen := by
  unfold flush
  dsimp only
  split <;> rfl

theorem record_seen (log : PlanLog) (line : String) (files : LoggedDisk) :
    (log.record line files).2.1.seen =
      if line ∈ log.seen then log.seen else log.seen ++ [line] := by
  unfold record
  split
  · rfl
  · dsimp only
    split
    · exact flush_seen _ files
    · rfl

end PlanLog

namespace Event

-- The line that a pair is recorded as.
def planLine (points : Point × Point) : String :=
  PlanLine.format points.1.planText points.2.planText

end Event

namespace Recorder

-- How a recorder comes to be that follows a run: it observes the events in their order, with the
-- files as they are then, while the flush interval may pass and lines may be flushed.
inductive Follows (start : Recorder) : List Event → Recorder → Prop
  | start : Follows start [] start
  | observe {events : List Event} {recorder : Recorder} (event : Event) (files : LoggedDisk)
      (h : Follows start events recorder) :
      Follows start (events ++ [event]) (recorder.observe event files).1
  | intervalPasses {events : List Event} {recorder : Recorder}
      (h : Follows start events recorder) :
      Follows start events { recorder with planLog := recorder.planLog.intervalPasses }
  | flush {events : List Event} {recorder : Recorder} (files : LoggedDisk)
      (h : Follows start events recorder) : Follows start events (recorder.flush files).1

theorem observe_seen (recorder : Recorder) (event : Event) (files : LoggedDisk) :
    (recorder.observe event files).1.planLog.seen ⊆
      recorder.planLog.seen ++ (Event.found [event]).map Event.planLine := by
  cases event with
  | dangerousPair earlier later =>
      have hseen := recorder.planLog.record_seen
        (PlanLine.format earlier.planText later.planText)
        (files.write (debugLine "dangerous pair"
          [("first", earlier.location), ("second", later.location)]))
      simp only [observe, hseen]
      split
      · exact List.subset_append_left _ _
      · exact List.Subset.refl _
  | _ => exact List.subset_append_left _ _

-- Every line that was recorded is that of a pair that was found.
theorem Follows.seen {start recorder : Recorder} {events : List Event}
    (h : Follows start events recorder) (hstart : start.planLog.seen = []) :
    recorder.planLog.seen ⊆ (Event.found events).map Event.planLine := by
  induction h with
  | start =>
      rw [hstart]
      exact List.nil_subset _
  | @observe events recorder event files _ ih =>
      rw [Event.found_append, List.map_append]
      refine List.Subset.trans (recorder.observe_seen event files)
        (List.append_subset.mpr ⟨?_, ?_⟩)
      · exact List.Subset.trans ih (List.subset_append_left _ _)
      · exact List.subset_append_right _ _
  | intervalPasses _ ih => exact ih
  | @flush _ recorder files _ ih =>
      have hseen : (recorder.flush files).1.planLog.seen = recorder.planLog.seen :=
        recorder.planLog.flush_seen files
      rw [hseen]
      exact ih

end Recorder

namespace Interleaving

-- The accesses of a run, in the order in which they are learned from.
def accesses (s : Interleaving) : List Action → List Access
  | [] => []
  | action :: rest =>
      match s.step action with
      | none => []
      | some (_, next) => (s.accessOf? action).toList ++ next.accesses rest

-- What every step preserves holds after every run, of its accesses and outputs and its state.
theorem exec_accesses_induction {P : List Access → List Output → Interleaving → Prop}
    (hstep : ∀ run outputs s action output s', P run outputs s →
      s.step action = some (output, s') →
        P (run ++ (s.accessOf? action).toList) (outputs ++ [output]) s')
    {s s' : Interleaving} {actions : List Action} {run : List Access}
    {before outputs : List Output} (h : s.exec actions = some (outputs, s'))
    (hstart : P run before s) : P (run ++ s.accesses actions) (before ++ outputs) s' := by
  induction actions generalizing s run before outputs with
  | nil =>
      obtain ⟨rfl, rfl⟩ := Prod.mk.inj (Option.some.inj h)
      simpa [accesses] using hstart
  | cons action rest ih =>
      obtain ⟨output, next, later, hnext, hrest, rfl⟩ := exec_uncons h
      have hlast := ih hrest (hstep run before s action output next hstart hnext)
      simpa [accesses, hnext] using hlast

-- Every access of a run is that of one of its calls, as the controller took it when it arrived.
theorem mem_accesses {s : Interleaving} (hlearned : s.controller.algorithm = .learned)
    {actions : List Action} {access : Access} (hm : access ∈ s.accesses actions) :
    ∃ (c : Learned) (call : Call), .arrive call ∈ actions ∧ access.Of (.learned c) call ∧
      access.point.time = call.time := by
  induction actions generalizing s with
  | nil => cases hm
  | cons action rest ih =>
      rw [accesses] at hm
      split at hm
      · cases hm
      · rename_i output next hstep
        rcases List.mem_append.mp hm with hnow | hlater
        · obtain ⟨c, hc⟩ : ∃ c, s.controller = .learned c := by
            cases hcase : s.controller with
            | randomized c =>
                rw [hcase] at hlearned
                cases hlearned
            | learned c => exact ⟨c, rfl⟩
          cases action with
          | arrive call =>
              have haccess := Option.mem_toList.mp hnow
              simp only [accessOf?, hc] at haccess
              exact ⟨c, call, List.mem_cons_self, c.approach_of call haccess,
                (c.approach_stamped call haccess).2⟩
          | advance thread => cases hnow
          | forget address => cases hnow
        · have halgorithm := (congrArg Prod.fst (step_settings hstep)).trans hlearned
          obtain ⟨c, call, hcall, hof⟩ := ih halgorithm hlater
          exact ⟨c, call, List.mem_cons_of_mem _ hcall, hof⟩

theorem accessOf?_unlocked {s : Interleaving} {c : Learned} (hc : s.controller = .learned c)
    {action : Action} {access : Access} (h : s.accessOf? action = some access) :
    c.lockApis.matchesAny access.point.callee = false := by
  cases action with
  | arrive call =>
      simp only [accessOf?, hc] at h
      exact c.approach_unlocked call h
  | advance thread => cases h
  | forget address => cases h

-- The controller of a run is learned and has watched it.
def Watches (params : LearnedParams) (lockApis : PatternSet) (blacklist : List LocationPair)
    (run : List Access) (outputs : List Output) (s : Interleaving) : Prop :=
  ∃ c, s.controller = .learned c ∧
    c.Watched params lockApis blacklist run (outputs.flatMap Output.events)

theorem Watches.step {params : LearnedParams} {lockApis : PatternSet}
    {blacklist : List LocationPair} {run : List Access} {outputs : List Output}
    {s s' : Interleaving} {action : Action} {output : Output}
    (h : Watches params lockApis blacklist run outputs s)
    (hstep : s.step action = some (output, s')) :
    Watches params lockApis blacklist (run ++ (s.accessOf? action).toList) (outputs ++ [output])
      s' := by
  obtain ⟨c, hc, hwatched⟩ := h
  obtain ⟨after, hafter, hchanged⟩ := step_changed hc hstep
  have hblacklist : after.shared.ledger.blacklist = c.shared.ledger.blacklist := by
    have hsettings := congrArg (fun settings => settings.2.2) (step_settings hstep)
    rw [hc, hafter] at hsettings
    exact hsettings
  refine ⟨after, hafter, ?_⟩
  rw [List.flatMap_append, List.flatMap_singleton]
  cases hchanged with
  | heard heard =>
      refine hwatched.heard heard hblacklist fun access haccess => ?_
      rw [← hwatched.lockApis_eq]
      exact accessOf?_unlocked hc haccess
  | forgot id silent params lockApis accesses danger found =>
      rw [silent, Option.toList_none, List.append_nil]
      exact hwatched.forgot params lockApis accesses danger found hblacklist

theorem watches_newLearned (config : RuntimeConfig) (classifier : Classifier)
    (entropy : RandomSource) (plans : PlanStore) (blacklist : List LocationPair)
    (lockApis : PatternSet) :
    Watches (config.learned.getD {}) lockApis (distinct blacklist) [] []
      { controller :=
          Detector.newLearned config classifier entropy plans blacklist lockApis } := by
  refine ⟨_, rfl, rfl, rfl, rfl, rfl, ?_, ?_, ?_, ?_⟩
  · intro access hm
    cases hm
  · intro _
    exact AccessLog.remembers_nil _
  · intro pair hm
    cases hm
  · intro points hm
    cases hm

-- Every pair that is live, and every line that was recorded for the next run, is that of two
-- accesses of the run that came close to racing; the accesses are those of its classified calls.
-- Without detection there are none.
theorem dangerous_pairs_sound (config : RuntimeConfig) (classifier : Classifier)
    (entropy : RandomSource) (plans : PlanStore) (blacklist : List LocationPair)
    (lockApis : PatternSet) (actions : List Action) (outputs : List Output) (s : Interleaving) :
    let params := config.learned.getD {}
    let start : Interleaving :=
      { controller := Detector.newLearned config classifier entropy plans blacklist lockApis }
    let NearMisses := NearMiss params lockApis blacklist (start.accesses actions)
    let told := outputs.flatMap Output.events
    start.exec actions = some (outputs, s) →
      (∀ access ∈ start.accesses actions, ∃ (c : Learned) (call : Call),
        .arrive call ∈ actions ∧ access.Of (.learned c) call ∧ access.point.time = call.time) ∧
      (∀ pair ∈ s.controller.dangerousPairs, ∃ earlier later, NearMisses earlier later ∧
        pair = .of earlier.point.location later.point.location) ∧
      (∀ first recorder, first.planLog.seen = [] → Recorder.Follows first told recorder →
        ∀ line ∈ recorder.planLog.seen, ∃ earlier later, NearMisses earlier later ∧
          line = PlanLine.format earlier.point.planText later.point.planText) ∧
      (params.detectDangerousPairs = false → s.controller.dangerousPairs = [] ∧
        ∀ first recorder, first.planLog.seen = [] → Recorder.Follows first told recorder →
          recorder.planLog.seen = []) := by
  intro params start NearMisses told h
  obtain ⟨c, hc, hwatched⟩ := exec_accesses_induction (fun _ _ _ _ _ _ h hstep => h.step hstep) h
    (watches_newLearned config classifier entropy plans blacklist lockApis)
  rw [List.nil_append, List.nil_append] at hwatched
  have hfound : ∀ points ∈ Event.found told, ∃ earlier later, NearMisses earlier later ∧
      points = (earlier.point, later.point) := by
    intro points hm
    obtain ⟨earlier, later, hmiss, he⟩ := hwatched.found points hm
    refine ⟨earlier, later, { hmiss with unlisted := ?_ }, he⟩
    exact fun hlisted => hmiss.unlisted (mem_distinct.mpr hlisted)
  have hpairs : ∀ pair ∈ s.controller.dangerousPairs, pair ∈ (Event.found told).map pairFound := by
    intro pair hm
    rw [hc] at hm
    have hlive := (LocationPair.sort_perm c.danger.pairs).mem_iff.mp hm
    exact (hwatched.live pair hlive).resolve_left List.not_mem_nil
  refine ⟨fun access hm => mem_accesses rfl hm, ?_, ?_, ?_⟩
  · intro pair hm
    obtain ⟨points, hpoints, rfl⟩ := List.mem_map.mp (hpairs pair hm)
    obtain ⟨earlier, later, hmiss, rfl⟩ := hfound points hpoints
    exact ⟨earlier, later, hmiss, rfl⟩
  · intro first recorder hfirst hfollows line hm
    obtain ⟨points, hpoints, rfl⟩ := List.mem_map.mp (hfollows.seen hfirst hm)
    obtain ⟨earlier, later, hmiss, rfl⟩ := hfound points hpoints
    exact ⟨earlier, later, hmiss, rfl⟩
  · intro hoff
    have hnone : Event.found told = [] := by
      apply List.eq_nil_iff_forall_not_mem.mpr
      intro points hm
      obtain ⟨earlier, later, hmiss, -⟩ := hfound points hm
      exact absurd hmiss.detected (by rw [hoff]; exact Bool.false_ne_true)
    rw [hnone] at hpairs
    refine ⟨List.eq_nil_iff_forall_not_mem.mpr fun pair hm =>
      List.not_mem_nil (hpairs pair hm), ?_⟩
    intro first recorder hfirst hfollows
    have hseen := hfollows.seen hfirst
    rw [hnone] at hseen
    exact List.subset_nil.mp hseen

-- Two threads that come to one instance from one place: the place races with itself.
theorem dangerous_pairs_sound_of_two :
    ∃ (s : Interleaving) (recorder : Recorder) (earlier later : Access),
      s.controller.dangerousPairs = [LocationPair.of "Map.Put|Main|1" "Map.Put|Main|1"] ∧
        recorder.planLog.seen = ["Map.Put|Main|1|0|0 ! Map.Put|Main|1|0|1"] ∧
        NearMiss .inMemory {} []
          (accesses { controller := Sample.tracked }
            [.arrive (Sample.put 1), .arrive (Sample.put 2)]) earlier later ∧
        PlanLine.format earlier.point.planText later.point.planText =
          "Map.Put|Main|1|0|0 ! Map.Put|Main|1|0|1" := by
  let start : Interleaving := { controller := Sample.tracked }
  have hready : (start.exec [.arrive (Sample.put 1), .arrive (Sample.put 2)]).any (fun told =>
      told.2.controller.dangerousPairs == [LocationPair.of "Map.Put|Main|1" "Map.Put|Main|1"] &&
        (told.1.flatMap Output.events).length == 1 &&
        (told.1.flatMap Output.events).all fun event =>
          (({} : Recorder).observe event {}).1.planLog.seen ==
            ["Map.Put|Main|1|0|0 ! Map.Put|Main|1|0|1"]) = true := by
    decide +kernel
  obtain ⟨⟨outputs, s⟩, hexec, hready⟩ := (Option.any_eq_true _ _).mp hready
  obtain ⟨hready, hlines⟩ := Bool.and_eq_true_iff.mp hready
  obtain ⟨hpairs, hone⟩ := Bool.and_eq_true_iff.mp hready
  obtain ⟨-, -, hrecorded, -⟩ :=
    dangerous_pairs_sound (.ofLearned .inMemory) Sample.instances Sample.entropy {} [] {} _ outputs
      s hexec
  obtain ⟨event, htold⟩ := List.length_eq_one_iff.mp (beq_iff_eq.mp hone)
  rw [htold] at hlines hrecorded
  have hseen := beq_iff_eq.mp (List.all_eq_true.mp hlines event List.mem_cons_self)
  obtain ⟨earlier, later, hmiss, hline⟩ :=
    hrecorded {} _ rfl (.observe event {} .start) _ (by rw [hseen]; exact List.mem_cons_self)
  exact ⟨s, _, earlier, later, beq_iff_eq.mp hpairs, hseen, hmiss, hline.symm⟩

end Interleaving

end DelayInjection
