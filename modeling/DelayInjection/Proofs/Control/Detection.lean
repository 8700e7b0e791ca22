import DelayInjection.Proofs.Control.Parking
import DelayInjection.Proofs.Control.Reports
import DelayInjection.Proofs.Control.Settings

-- Races as their calls see them: which traps a call runs into, which of them it handles, and what
-- comes of it for the call and for the threads in the traps.

namespace DelayInjection

def Arrival.races (arrival : Arrival) : List Trap := Event.races arrival.events

-- What a call returns that found these races.
def Call.verdict (call : Call) (raise : Bool) : List Trap → CallResult
  | [] => .ok ()
  | oldest :: _ =>
      if raise then
        .error
          { object := oldest.object
            trapped := oldest.point.location
            racing := call.location }
      else .ok ()

namespace Shared

theorem races_handleConflict (shared : Shared) (racing : Point) (trap : Trap)
    (hb : pairOf trap racing ∉ shared.ledger.blacklist) :
    Event.races (handleConflict racing { shared } trap).events = [trap] := by
  by_cases hs : pairOf trap racing ∈ shared.ledger.seen
  · rw [handleConflict_duplicate _ hb hs]
    rfl
  · rw [handleConflict_new _ hb hs]
    rfl

-- Conflicts that were not confirmed before all count as races, and the call learns of the first.
theorem handleConflicts_races (shared : Shared) (conflicts : List Trap) (racing : Point)
    (hopen : ∀ trap ∈ conflicts, pairOf trap racing ∉ shared.ledger.blacklist) :
    let handled := shared.handleConflicts conflicts racing
    handled.race? = conflicts.head?.map (raceOf · racing) ∧
      Event.races handled.events = conflicts ∧ handled.released = conflicts.map Trap.id := by
  induction conflicts generalizing shared with
  | nil => exact ⟨rfl, rfl, rfl⟩
  | cons trap rest ih =>
      have hb := hopen trap List.mem_cons_self
      have hledger := handleConflict_ledger shared racing trap
      have hraces := races_handleConflict shared racing trap hb
      have hanswered := handleConflict_answered shared racing trap
      dsimp only at hanswered
      rw [Handling.Answered, if_neg (show Handling.pair ⟨trap, racing, _, _⟩ ∉ _ from hb)]
        at hanswered
      have hall : shared.handleConflicts (trap :: rest) racing =
          rest.foldl (handleConflict racing) (handleConflict racing { shared } trap) := rfl
      rw [hall, foldl_handleConflict_eq]
      generalize handleConflict racing { shared } trap = one at hledger hraces hanswered
      obtain ⟨hrace, hreleased⟩ := hanswered
      dsimp only at hrace hreleased ⊢
      obtain ⟨-, hevents, hrest⟩ := ih one.shared (by
        intro other hm
        rw [hledger]
        exact hopen other (List.mem_cons_of_mem _ hm))
      refine ⟨?_, ?_, ?_⟩
      · rw [hrace]
        rfl
      · rw [Event.races_append, hraces, hevents]
        rfl
      · rw [hreleased, hrest]
        rfl

theorem finish_verdict (shared : Shared) (call : Call) {racing : Point}
    (hlocation : racing.location = call.location) (races : List Trap) :
    shared.finish (races.head?.map (raceOf · racing)) = call.verdict shared.raiseOnRace races := by
  cases races with
  | nil => rfl
  | cons oldest rest => simp [finish, Call.verdict, raceOf, hlocation]

end Shared

namespace Controller

-- Whether a call is governed by a plan that repeats.
def repeats (c : Controller) (call : Call) : Bool := (c.planOf call).any (·.plan.repeats)

-- A trap that a call of a class runs into: it lies on the same object in the bucket of the same
-- group, another thread waits in it, one of the two accesses is a write, and for the learned
-- controller their pair is not blacklisted.
structure Conflict (c : Controller) (call : Call) (classification : Classification)
    (trap : Trap) : Prop where
  filed : trap ∈ c.shared.traps.on classification.group.name (c.objectOf call classification)
  foreign : trap.point.thread ≠ call.thread
  write : trap.isWrite = true ∨ classification.isWrite = true
  unlisted : c.algorithm = .learned →
    LocationPair.of trap.point.location call.location ∉ c.shared.ledger.blacklist

-- The conflicts of an access, oldest first.
def conflicts (c : Controller) (access : Access) : List Trap :=
  match c with
  | .randomized c => c.conflicts access.point access.classification
  | .learned c => c.conflicts access.point access.classification

-- Whether a call handles all its conflicts; otherwise it handles the oldest one.
def handlesAll (c : Controller) (access : Access) : Bool :=
  match c with
  | .randomized _ => true
  | .learned _ => access.plan?.any (·.plan.repeats)

theorem check_conflicts (c : Controller) (access : Access) :
    (c.check access).1 =
      if c.handlesAll access then c.conflicts access else (c.conflicts access).take 1 := by
  cases c with
  | randomized c =>
      simp only [check, handlesAll, conflicts, Randomized.decide, if_true]
      split <;> rfl
  | learned c => exact c.decide_races access.point access.classification access.plan?

-- A call that handles a conflict sets a trap only if its plan repeats.
theorem check_trapped_repeats (c : Controller) (access : Access) {trap : Trap}
    (htrap : (c.check access).2.1 = some trap) (hraces : (c.check access).1 ≠ []) :
    c.algorithm = .learned ∧ access.plan?.any (·.plan.repeats) = true := by
  cases c with
  | randomized c =>
      exact absurd (c.decide_trapped access.point access.classification htrap).1 hraces
  | learned c =>
      exact ⟨rfl, (c.decide_trapped access.point access.classification access.plan?
        htrap).resolve_left hraces⟩

-- A trap that an access runs into, as the controller knows the two.
structure Meets (c : Controller) (access : Access) (trap : Trap) : Prop where
  filed : trap ∈ c.shared.traps.on access.classification.group.name access.point.object
  foreign : trap.point.thread ≠ access.point.thread
  write : trap.isWrite = true ∨ access.point.isWrite = true
  unlisted : c.algorithm = .learned →
    Shared.pairOf trap access.point ∉ c.shared.ledger.blacklist

theorem mem_conflicts_iff (c : Controller) (access : Access) (trap : Trap) :
    trap ∈ c.conflicts access ↔ c.Meets access trap := by
  cases c with
  | randomized c =>
      simp only [conflicts, Randomized.conflicts]
      rw [List.mem_filter]
      simp only [Trap.conflictsWith, Bool.and_eq_true, bne_iff_ne, Bool.or_eq_true]
      constructor
      · rintro ⟨hfiled, hforeign, hwrite⟩
        exact ⟨hfiled, hforeign, hwrite, nofun⟩
      · intro h
        exact ⟨h.filed, h.foreign, h.write⟩
  | learned c =>
      simp only [conflicts, Learned.conflicts]
      rw [List.mem_filter]
      simp only [Trap.conflictsWith, Bool.and_eq_true, bne_iff_ne, Bool.or_eq_true,
        RaceLedger.isBlacklisted, Bool.not_eq_true', decide_eq_false_iff_not]
      constructor
      · rintro ⟨hfiled, ⟨hforeign, hwrite⟩, hunlisted⟩
        exact ⟨hfiled, hforeign, hwrite, fun _ => hunlisted⟩
      · intro h
        exact ⟨h.filed, ⟨h.foreign, h.write⟩, h.unlisted rfl⟩

theorem conflicts_sublist (c : Controller) (access : Access) :
    (c.conflicts access).Sublist
      (c.shared.traps.on access.classification.group.name access.point.object) := by
  cases c with
  | randomized c => exact List.filter_sublist
  | learned c => exact List.filter_sublist

-- What a check promises of the conflicts that its call is to handle: they are the traps that it
-- runs into, or the oldest of them, and with one of them a trap is set only under a plan that
-- repeats.
structure Finds (c : Controller) (access : Access) : Prop where
  found : (c.check access).1 ≠ [] ↔ ∃ trap, c.Meets access trap
  order : (c.check access).1.Sublist
    (c.shared.traps.on access.classification.group.name access.point.object)
  ids : (c.check access).1.Pairwise fun a b => a.id < b.id
  every : c.handlesAll access = true → ∀ trap, trap ∈ (c.check access).1 ↔ c.Meets access trap
  oldest : c.handlesAll access = false → ∀ trap, trap ∈ (c.check access).1 ↔
    c.Meets access trap ∧ ∀ other, c.Meets access other → trap.id ≤ other.id
  trapped : (c.check access).1 ≠ [] → ∀ trap, (c.check access).2.1 = some trap →
    c.algorithm = .learned ∧ access.plan?.any (·.plan.repeats) = true

theorem Finds.meets {c : Controller} {access : Access} (h : c.Finds access) {trap : Trap}
    (hm : trap ∈ (c.check access).1) : c.Meets access trap := by
  cases hall : c.handlesAll access with
  | true => exact (h.every hall trap).mp hm
  | false => exact ((h.oldest hall trap).mp hm).1

theorem finds (c : Controller) (hsound : c.shared.traps.Sound) (access : Access) :
    c.Finds access := by
  have hsublist := c.conflicts_sublist access
  have hordered : (c.conflicts access).Pairwise fun a b => a.id < b.id :=
    (hsound.ordered _ _).sublist hsublist
  have hchecked : (c.check access).1.Sublist (c.conflicts access) := by
    rw [check_conflicts]
    split
    · exact List.Sublist.refl _
    · exact List.take_sublist 1 _
  have hnil : (c.check access).1 = [] ↔ c.conflicts access = [] := by
    rw [check_conflicts]
    split
    · rfl
    · simp
  refine ⟨?_, hchecked.trans hsublist, hordered.sublist hchecked, ?_, ?_,
    fun hfound trap hset => c.check_trapped_repeats access hset hfound⟩
  · rw [ne_eq, hnil]
    constructor
    · intro hsome
      obtain ⟨trap, hm⟩ := List.exists_mem_of_ne_nil _ hsome
      exact ⟨trap, (c.mem_conflicts_iff access trap).mp hm⟩
    · rintro ⟨trap, hmeets⟩
      exact List.ne_nil_of_mem ((c.mem_conflicts_iff access trap).mpr hmeets)
  · intro hall trap
    rw [check_conflicts, if_pos hall]
    exact c.mem_conflicts_iff access trap
  · intro honce trap
    rw [check_conflicts, if_neg (by simp [honce]), TrapStore.mem_take_one_iff hordered]
    simp only [mem_conflicts_iff]

-- The traps that an access runs into are those of its call.
theorem meets_iff {before c : Controller} {call : Call} {access : Access}
    (hof : access.Of before call) (halike : Shared.Alike before.shared c.shared)
    (hsettings : c.settings = before.settings) (trap : Trap) :
    c.Meets access trap ↔ before.Conflict call access.classification trap := by
  have hpair : Shared.pairOf trap access.point =
      LocationPair.of trap.point.location call.location := by
    rw [Shared.pairOf, hof.location]
  have halgorithm : c.algorithm = before.algorithm := congrArg Prod.fst hsettings
  constructor
  · rintro ⟨hfiled, hforeign, hwrite, hunlisted⟩
    rw [halike.traps, hof.object] at hfiled
    rw [hof.thread] at hforeign
    rw [hof.isWrite] at hwrite
    rw [hpair, halgorithm, halike.ledger] at hunlisted
    exact ⟨hfiled, hforeign, hwrite, hunlisted⟩
  · rintro ⟨hfiled, hforeign, hwrite, hunlisted⟩
    rw [← halike.traps, ← hof.object] at hfiled
    rw [← hof.thread] at hforeign
    rw [← hof.isWrite] at hwrite
    rw [← hpair, ← halgorithm, ← halike.ledger] at hunlisted
    exact ⟨hfiled, hforeign, hwrite, hunlisted⟩

theorem handlesAll_iff {before c : Controller} {call : Call} {access : Access}
    (hof : access.Of before call) (hsettings : c.settings = before.settings) :
    c.handlesAll access = true ↔
      before.algorithm = .randomized ∨ before.repeats call = true := by
  have halgorithm : c.algorithm = before.algorithm := congrArg Prod.fst hsettings
  rw [← halgorithm, repeats, ← hof.plan]
  cases c <;> simp [handlesAll, algorithm]

-- No conflict that a call handles was confirmed before.
theorem check_unlisted {before c : Controller} {call : Call} {access : Access}
    (hof : access.Of before call) (halike : Shared.Alike before.shared c.shared)
    (hsettings : c.settings = before.settings)
    (hrandomized : before.algorithm = .randomized → before.shared.ledger.blacklist = []) :
    ∀ trap ∈ (c.check access).1,
      Shared.pairOf trap access.point ∉ (c.check access).2.2.shared.ledger.blacklist := by
  intro trap hm
  have hconflict : trap ∈ c.conflicts access := by
    rw [check_conflicts] at hm
    split at hm
    · exact hm
    · exact List.mem_of_mem_take hm
  have hmeets := (c.mem_conflicts_iff access trap).mp hconflict
  have hunlisted := ((meets_iff hof halike hsettings trap).mp hmeets).unlisted
  rw [(c.check_booking access).ledger_eq, halike.ledger, Shared.pairOf, hof.location]
  -- the randomized controller does not ask for the blacklist, so that it has to be empty
  cases before with
  | randomized _ =>
      rw [hrandomized rfl]
      exact List.not_mem_nil
  | learned _ => exact hunlisted rfl

end Controller

namespace Run

-- What a call with a class does to a run, in terms of its check.
structure Checked (run : Run) (call : Call) (c : Controller) (access : Access)
    (arrival : Arrival) (next : Run) : Prop where
  of : access.Of run.controller call
  alike : Shared.Alike run.controller.shared c.shared
  settings : c.settings = run.controller.settings
  races : arrival.races = (c.check access).1
  released : arrival.released = (c.check access).1.map Trap.id
  returned : (c.check access).2.1 = none →
    arrival.outcome =
        .returned (call.verdict run.controller.shared.raiseOnRace (c.check access).1) ∧
      next.parked = signal arrival.released run.parked
  waiting : ∀ trap, (c.check access).2.1 = some trap →
    let race? := (c.check access).1.head?.map (Shared.raceOf · access.point)
    arrival.outcome = .waiting { trap, race? } ∧
      next.parked =
        (signal arrival.released run.parked).insert call.thread { wait := { trap, race? } }

theorem call_checked {run : Run} {call : Call} {classification : Classification}
    (hfree : run.parked.get? call.thread = none)
    (hclass : run.controller.classOf call = some classification)
    (hrandomized : run.controller.algorithm = .randomized →
      run.controller.shared.ledger.blacklist = []) :
    ∃ c access arrival next, run.call call = some (arrival, next) ∧
      access.classification = classification ∧ run.Checked call c access arrival next := by
  have hclassified := run.controller.approach_class call
  have hof : ∀ access, (run.controller.approach call).2.1 = some access →
      access.Of run.controller call := fun _ => run.controller.approach_of call
  have halike := run.controller.alike_approach call
  have hsettings := run.controller.settings_approach call
  have hquiet := (run.controller.raceless_approach call).races_eq
  have honCall := run.controller.onCall_eq call
  rw [hclass] at hclassified
  generalize run.controller.approach call = approached at *
  obtain ⟨events, _ | access, c⟩ := approached
  · cases hclassified
  · -- every conflict handled counts as a race, and settling adds nothing but the trap
    dsimp only at hof halike hsettings hquiet honCall
    have hunlisted := Controller.check_unlisted (hof access rfl) halike hsettings hrandomized
    obtain ⟨hrace, hfound, hreleased⟩ := Shared.handleConflicts_races _ _ _ hunlisted
    obtain ⟨seen, hshared⟩ :=
      (c.check access).2.2.shared.handleConflicts_shared (c.check access).1 access.point
    have hraise := (c.check_booking access).raise_eq.trans halike.raise
    have hfinish := Shared.finish_verdict
      ((c.check access).2.2.shared.handleConflicts (c.check access).1 access.point).shared call
      (hof access rfl).location (c.check access).1
    have hsame : ((c.check access).2.2.shared.handleConflicts (c.check access).1
        access.point).shared.raiseOnRace = run.controller.shared.raiseOnRace := by
      rw [hshared, hraise]
    rw [hsame] at hfinish
    have hset : ∀ trap? : Option Trap, Event.races (trap?.toList.map .trapSet) = [] := by
      intro trap?
      cases trap? <;> rfl
    refine ⟨c, access, _, _, call_eq_some_iff.mpr ⟨hfree, rfl, rfl⟩,
      Option.some.inj hclassified, ?_⟩
    rw [honCall]
    refine ⟨hof access rfl, halike, hsettings, ?_, hreleased, ?_, ?_⟩
    · simp only [Arrival.races, Controller.settle, Event.races_append, hquiet, hfound, hset,
        List.nil_append, List.append_nil]
    · intro hnone
      simp only [Controller.settle, hnone, hrace, hfinish, and_self]
    · intro trap hsome
      simp only [Controller.settle, hsome, hrace, and_self]

theorem get?_signal (released : List Nat) (parked : Table ThreadId Parked) (thread : ThreadId) :
    (signal released parked).get? thread =
      (parked.get? thread).map fun parked =>
        if parked.wait.trap.id ∈ released then { parked with latch := parked.latch.release }
        else parked :=
  Table.get?_mapEntries parked _ thread

-- What a thread waits for does not change until it wakes up.
theorem step_keeps_wait {run next : Run} {step : Step} {thread : ThreadId} {wait : Waiting}
    (h : run.step step = some next) (hne : step ≠ .wake thread)
    (hwait : (run.parked.get? thread).map Parked.wait = some wait) :
    (next.parked.get? thread).map Parked.wait = some wait := by
  cases step with
  | call call =>
      obtain ⟨⟨arrival, _⟩, hcall, rfl⟩ := Option.map_eq_some_iff.mp h
      obtain ⟨hfree, -, rfl⟩ := call_eq_some_iff.mp hcall
      have hsignal : ((signal arrival.released run.parked).get? thread).map Parked.wait =
          some wait := by
        rw [get?_signal, Option.map_map, ← hwait]
        congr 1
        funext parked
        simp only [Function.comp_apply]
        split <;> rfl
      have hother : call.thread ≠ thread := by
        rintro rfl
        rw [hfree] at hwait
        cases hwait
      dsimp only
      cases arrival.outcome with
      | returned result => exact hsignal
      | waiting other =>
          rw [Table.get?_insert_of_ne _ _ hother]
          exact hsignal
  | wake other =>
      obtain ⟨⟨result, _⟩, hwake, rfl⟩ := Option.map_eq_some_iff.mp h
      obtain ⟨parked, -, -, rfl⟩ := wake_eq_some_iff.mp hwake
      have hother : other ≠ thread := fun he => hne (he ▸ rfl)
      rw [Table.get?_erase, if_neg hother]
      exact hwait
  | forget address =>
      obtain rfl := Option.some.inj h
      exact hwait

theorem exec_keeps_wait {run later : Run} {steps : List Step} {thread : ThreadId}
    {wait : Waiting} (h : run.exec steps = some later) (hno : .wake thread ∉ steps)
    (hwait : (run.parked.get? thread).map Parked.wait = some wait) :
    (later.parked.get? thread).map Parked.wait = some wait := by
  induction steps generalizing run with
  | nil =>
      obtain rfl := Option.some.inj h
      exact hwait
  | cons first rest ih =>
      obtain ⟨next, hnext, hrest⟩ := Option.bind_eq_some_iff.mp h
      have hne : first ≠ .wake thread := fun he => hno (he ▸ List.mem_cons_self)
      exact ih hrest (fun hm => hno (List.mem_cons_of_mem _ hm))
        (step_keeps_wait hnext hne hwait)

-- A parked call returns what it learned before it was parked.
theorem wake_verdict {run : Run} {thread : ThreadId} {wait : Waiting}
    (hwait : (run.parked.get? thread).map Parked.wait = some wait) :
    ∃ last, run.wake thread = some (run.controller.shared.finish wait.race?, last) := by
  obtain ⟨parked, hget, rfl⟩ := Option.map_eq_some_iff.mp hwait
  refine ⟨_, wake_eq_some_iff.mpr ⟨parked, hget, ?_, rfl⟩⟩
  rw [Controller.resume_eq]
  simp only [Controller.shared_withShared, Controller.shared_afterWait]
  rfl

-- What race detection promises of a call with a class.
structure Detected (config : RuntimeConfig) (run : Run) (call : Call)
    (classification : Classification) (arrival : Arrival) (next : Run) : Prop where
  found : arrival.races ≠ [] ↔ ∃ trap, run.controller.Conflict call classification trap
  order : arrival.races.Sublist
    (run.controller.shared.traps.on classification.group.name
      (run.controller.objectOf call classification))
  ids : arrival.races.Pairwise fun a b => a.id < b.id
  every : run.controller.algorithm = .randomized ∨ run.controller.repeats call = true →
    ∀ trap, trap ∈ arrival.races ↔ run.controller.Conflict call classification trap
  oldest : run.controller.algorithm = .learned → run.controller.repeats call = false →
    ∀ trap, trap ∈ arrival.races ↔ run.controller.Conflict call classification trap ∧
      ∀ other, run.controller.Conflict call classification other → trap.id ≤ other.id
  released : arrival.released = arrival.races.map Trap.id
  signalled : ∀ trap ∈ arrival.races, ∃ parked,
    next.parked.get? trap.point.thread = some parked ∧ parked.wait.trap = trap ∧
      parked.latch.isSet = true
  returned : ∀ result, arrival.outcome = .returned result →
    result = call.verdict config.raiseOnRace arrival.races
  resumed : ∀ wait, arrival.outcome = .waiting wait → ∀ steps later,
    next.exec steps = some later → .wake call.thread ∉ steps →
      ∃ last, later.wake call.thread = some (call.verdict config.raiseOnRace arrival.races, last)
  trapped : arrival.races ≠ [] → ∀ wait, arrival.outcome = .waiting wait →
    run.controller.algorithm = .learned ∧ run.controller.repeats call = true

section

variable {run next : Run} {call : Call} {c : Controller} {access : Access} {arrival : Arrival}

theorem Checked.finds (h : run.Checked call c access arrival next)
    (hbooked : run.interleaving.Booked) : c.Finds access :=
  c.finds (h.alike.traps ▸ hbooked.sound) access

theorem Checked.meets_iff (h : run.Checked call c access arrival next) (trap : Trap) :
    c.Meets access trap ↔ run.controller.Conflict call access.classification trap :=
  Controller.meets_iff h.of h.alike h.settings trap

-- The threads in the handled traps are still parked, and are told to go.
theorem Checked.signalled (h : run.Checked call c access arrival next)
    (hbooked : run.interleaving.Booked) {trap : Trap} (hm : trap ∈ arrival.races) :
    ∃ parked, next.parked.get? trap.point.thread = some parked ∧ parked.wait.trap = trap ∧
      parked.latch.isSet = true := by
  have hconflict := (h.meets_iff trap).mp ((h.finds hbooked).meets (h.races ▸ hm))
  have hall : trap ∈ run.controller.shared.traps.all :=
    (TrapStore.mem_all_iff _ _).mpr ⟨_, _, hconflict.filed⟩
  obtain ⟨parked, hget, rfl⟩ := waited_of_booked hbooked hall
  have hreleased : parked.wait.trap.id ∈ arrival.released := by
    rw [h.released, ← h.races]
    exact List.mem_map_of_mem hm
  have hsignal : (signal arrival.released run.parked).get? parked.wait.trap.point.thread =
      some { parked with latch := parked.latch.release } := by
    rw [get?_signal, hget, Option.map_some, if_pos hreleased]
  refine ⟨{ parked with latch := parked.latch.release }, ?_, rfl, rfl⟩
  cases hset : (c.check access).2.1 with
  | none =>
      rw [(h.returned hset).2]
      exact hsignal
  | some own =>
      rw [(h.waiting own hset).2, Table.get?_insert_of_ne _ _ hconflict.foreign.symm]
      exact hsignal

-- A call that is parked returns its verdict when it wakes up, whatever happens in between.
theorem Checked.resumed (h : run.Checked call c access arrival next) {wait : Waiting}
    (hwaits : arrival.outcome = .waiting wait) {steps : List Step} {later : Run}
    (hexec : next.exec steps = some later) (hno : .wake call.thread ∉ steps)
    (hsettings : next.controller.settings = run.controller.settings) :
    ∃ last, later.wake call.thread =
      some (call.verdict run.controller.shared.raiseOnRace arrival.races, last) := by
  cases hset : (c.check access).2.1 with
  | none =>
      rw [(h.returned hset).1] at hwaits
      cases hwaits
  | some own =>
      obtain ⟨houtcome, hparked⟩ := h.waiting own hset
      -- the policy at the wake-up is the one at the call
      have hraise := congrArg (·.2.1) ((exec_settings hexec).trans hsettings)
      have hfinish := Shared.finish_verdict later.controller.shared call h.of.location
        (c.check access).1
      rw [show later.controller.shared.raiseOnRace = run.controller.shared.raiseOnRace from hraise]
        at hfinish
      have hwait : (next.parked.get? call.thread).map Parked.wait =
          some ⟨own, (c.check access).1.head?.map (Shared.raceOf · access.point)⟩ := by
        rw [hparked, Table.get?_insert_self, Option.map_some]
      rw [h.races, ← hfinish]
      exact wake_verdict (exec_keeps_wait hexec hno hwait)

theorem Checked.detected {config : RuntimeConfig} (h : run.Checked call c access arrival next)
    (hbooked : run.interleaving.Booked)
    (hsettings : next.controller.settings = run.controller.settings)
    (hraise : run.controller.shared.raiseOnRace = config.raiseOnRace) :
    run.Detected config call access.classification arrival next := by
  have hall := Controller.handlesAll_iff h.of h.settings
  have hfinds := h.finds hbooked
  have horder := hfinds.order
  rw [h.of.object, h.alike.traps, ← h.races] at horder
  refine ⟨?_, horder, h.races ▸ hfinds.ids, ?_, ?_, ?_, fun trap hm => h.signalled hbooked hm, ?_,
    ?_, ?_⟩
  · rw [h.races, hfinds.found]
    simp only [h.meets_iff]
  · intro hevery trap
    rw [h.races, hfinds.every (hall.mpr hevery), h.meets_iff]
  · intro hlearned honce trap
    have hnot : c.handlesAll access = false := by
      rw [← Bool.not_eq_true, hall, hlearned, honce]
      simp
    rw [h.races, hfinds.oldest hnot]
    simp only [h.meets_iff]
  · rw [h.released, h.races]
  · intro result hresult
    cases hset : (c.check access).2.1 with
    | none =>
        rw [(h.returned hset).1, hraise] at hresult
        rw [h.races]
        exact (Outcome.returned.inj hresult).symm
    | some own =>
        rw [(h.waiting own hset).1] at hresult
        cases hresult
  · intro wait hwaits steps later hexec hno
    rw [← hraise]
    exact h.resumed hwaits hexec hno hsettings
  · intro hfound wait hwaits
    cases hset : (c.check access).2.1 with
    | none =>
        rw [(h.returned hset).1] at hwaits
        cases hwaits
    | some own =>
        rw [h.races] at hfound
        obtain ⟨hlearned, hrepeats⟩ := hfinds.trapped hfound own hset
        rw [← show c.algorithm = run.controller.algorithm from congrArg Prod.fst h.settings]
        exact ⟨hlearned, by rw [Controller.repeats, ← h.of.plan]; exact hrepeats⟩

end

end Run

namespace Detector

variable {config : RuntimeConfig} {logEvents : Bool} {extra : List Sink} {host : Host}
  {files files' : LoggedDisk} {detector : Detector} {session : Session}

-- In every state of every run of a detector, a call finds exactly the races that it runs into. If
-- calls interleave, that is so of every thread that comes to the check of its bucket.
theorem detection_exact
    (hbuild : build config logEvents extra host files = (.ok detector, files'))
    (hsession : detector.session? = some session) :
    (∀ (steps : List Run.Step) (run : Run), session.run.exec steps = some run →
      ∀ (call : Call) (classification : Classification),
        run.parked.get? call.thread = none →
        run.controller.classOf call = some classification →
        ∃ arrival next, run.call call = some (arrival, next) ∧
          run.Detected config call classification arrival next) ∧
      ∀ (actions : List Interleaving.Action) (outputs : List Output) (s : Interleaving),
        Interleaving.exec { controller := session.run.controller } actions = some (outputs, s) →
        ∀ (thread : ThreadId) (access : Access),
          s.stages.get? thread = some (.checking access) → s.controller.Finds access := by
  obtain ⟨hparked, hbuilds⟩ := build_builds hbuild hsession
  refine ⟨?_, fun actions outputs s hexec thread access _ =>
    s.controller.finds (hbuilds.fresh.booked.exec hexec).sound access⟩
  intro steps run hrun call classification hfree hclass
  have hstart : session.run = { controller := session.run.controller } := by
    rw [← hparked]
  have hsettings := Run.exec_settings hrun
  have hrandomized : run.controller.algorithm = .randomized →
      run.controller.shared.ledger.blacklist = [] := by
    intro hr
    have halgorithm : run.controller.algorithm = session.run.controller.algorithm :=
      congrArg Prod.fst hsettings
    have hblacklist : run.controller.shared.ledger.blacklist =
        session.run.controller.shared.ledger.blacklist := congrArg (·.2.2) hsettings
    rw [hblacklist]
    exact hbuilds.blacklist_eq (halgorithm ▸ hr)
  have hraise : run.controller.shared.raiseOnRace = config.raiseOnRace :=
    (congrArg (·.2.1) hsettings).trans hbuilds.raiseOnRace_eq
  obtain ⟨c, access, arrival, next, hcall, rfl, hchecked⟩ :=
    Run.call_checked hfree hclass hrandomized
  have hnext : next.controller.settings = run.controller.settings := by
    have hstep : run.exec [.call call] = some next := by
      simp [Run.exec, Run.step, hcall]
    exact Run.exec_settings hstep
  rw [hstart] at hrun
  exact ⟨arrival, next, hcall, hchecked.detected (Run.booked hbuilds.fresh hrun) hnext hraise⟩

-- Under a plan that repeats, a second call races with the trap of the first and sets its own.
theorem detection_exact_repeating :
    ∃ (run next : Run) (arrival : Arrival),
      run.call (Sample.call 2) = some (arrival, next) ∧ arrival.races.length = 1 ∧
        next.parked.size = 2 ∧
        run.Detected Sample.learned (Sample.call 2) ⟨Sample.group, true⟩ arrival next := by
  have hready : (((build Sample.learned false [] Sample.host {}).1.toOption.bind
      (·.session?)).bind fun session => session.run.exec [.call (Sample.call 1)]).any (fun run =>
        (run.parked.get? 2).isNone &&
          run.controller.classOf (Sample.call 2) == some ⟨Sample.group, true⟩ &&
          (run.call (Sample.call 2)).any fun told =>
            told.1.races.length == 1 && told.2.parked.size == 2) = true := by
    decide +kernel
  obtain ⟨run, hrun, htold⟩ := (Option.any_eq_true _ _).mp hready
  obtain ⟨session, hsession, hexec⟩ := Option.bind_eq_some_iff.mp hrun
  obtain ⟨detector, hdetector, hsession⟩ := Option.bind_eq_some_iff.mp hsession
  obtain ⟨hcalls, hcall⟩ := Bool.and_eq_true_iff.mp htold
  obtain ⟨hfree, hclass⟩ := Bool.and_eq_true_iff.mp hcalls
  generalize hbuild : build Sample.learned false [] Sample.host {} = built at hdetector
  obtain ⟨_ | found, files'⟩ := built
  · cases hdetector
  · obtain rfl := Option.some.inj hdetector
    obtain ⟨arrival, next, hnext, hdetected⟩ := (detection_exact hbuild hsession).1 _ run hexec
      (Sample.call 2) ⟨Sample.group, true⟩ (Option.isNone_iff_eq_none.mp hfree)
      (beq_iff_eq.mp hclass)
    rw [hnext] at hcall
    obtain ⟨hraces, hparked⟩ := Bool.and_eq_true_iff.mp hcall
    exact ⟨run, next, arrival, hnext, beq_iff_eq.mp hraces, beq_iff_eq.mp hparked, hdetected⟩

end Detector

end DelayInjection
