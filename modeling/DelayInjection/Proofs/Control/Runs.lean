import Mathlib.Data.List.Induction
import DelayInjection.Proofs.Control.Effects

-- Runs as sequences of steps, in which every call goes through without interruption until it
-- returns or parks. Such a run is one of the interleavings of its sections.

namespace DelayInjection

namespace Controller

theorem withShared_withShared (c : Controller) (first second : Shared → Shared) :
    (c.withShared first).withShared second = c.withShared (second ∘ first) := by
  cases c <;> rfl

theorem withShared_self (c : Controller) : (c.withShared fun _ => c.shared) = c := by
  cases c <;> rfl

-- What a call does after its check, when nothing comes between.
def settle (c : Controller) (point : Point) (events : List Event) (races : List Trap)
    (trap? : Option Trap) : Arrival × Controller :=
  let handled := c.shared.handleConflicts races point
  ({ outcome := match trap? with
      | none => .returned (handled.shared.finish handled.race?)
      | some trap => .waiting { trap, race? := handled.race? }
     events := events ++ (handled.events ++ trap?.toList.map .trapSet)
     released := handled.released },
    c.withShared fun _ => handled.shared)

theorem onCall_eq (c : Controller) (call : Call) :
    c.onCall call =
      match c.approach call with
      | (events, none, c) => ({ outcome := .returned (.ok ()), events }, c)
      | (events, some access, c) =>
          let (races, trap?, c) := c.check access
          c.settle access.point events races trap? := by
  cases c with
  | randomized c =>
      simp only [onCall, Randomized.onCall, approach, Randomized.approach]
      generalize c.identify call = identified
      obtain ⟨_ | ⟨point, classification⟩, after⟩ := identified
      · rfl
      · dsimp only [check]
        generalize after.decide point classification = decided
        obtain ⟨conflicts, _ | trap, final⟩ := decided <;>
          simp [Randomized.settle, settle, shared, withShared]
  | learned c =>
      simp only [onCall, Learned.onCall, approach, Learned.approach]
      generalize c.stamp call = stamped
      obtain ⟨point, plan?, after⟩ := stamped
      dsimp only
      generalize after.classify call = classified
      obtain ⟨_ | classification, classified⟩ := classified
      · rfl
      · dsimp only [check]
        generalize Learned.learn _ _ _ = learned
        obtain ⟨found, learned⟩ := learned
        dsimp only
        generalize learned.decide _ _ _ = decided
        obtain ⟨races, _ | trap, final⟩ := decided <;>
          simp [Learned.settle, settle, shared, withShared]

theorem resume_eq (c : Controller) (wait : Waiting) :
    c.resume wait =
      let c := ((c.afterWait wait).withShared (·.removeTrap wait.trap)).withShared Shared.leave
      (c.shared.finish wait.race?, c) := by
  cases c <;> rfl

end Controller

namespace Interleaving

-- A conflict is faced, settled when it is a race, and then the thread goes on to the next one.
theorem exec_conflict (s : Interleaving) (thread : ThreadId) (racing : Point) (conflict : Trap)
    (rest : List Trap) (race? : Option Race) (trap? : Option Trap)
    (hstage : s.stages.get? thread = some (.handling racing (conflict :: rest) race? trap?)) :
    let one := Shared.handleConflict racing { shared := s.controller.shared } conflict
    ∃ actions outputs,
      s.exec actions =
        some (outputs,
          { controller := s.controller.withShared fun _ => one.shared
            stages := s.stages.set thread
              (some (.handling racing rest (race?.or one.race?) trap?)) }) ∧
      outputs.flatMap Output.events = one.events ∧
      outputs.flatMap Output.handled = [⟨conflict, racing, one.race?, one.released⟩] ∧
      outputs.filterMap Output.result? = [] := by
  let race := Shared.raceOf conflict racing
  have hself := s.controller.withShared_self
  have hfaced := s.controller.shared.faced racing conflict rest race? trap?
  generalize hface : s.controller.shared.face racing conflict rest race? trap? = faced at hfaced
  cases hfaced with
  | blacklisted listed =>
      rw [Shared.handleConflict_blacklisted _ listed]
      refine ⟨[.advance thread], [{ handled := [⟨conflict, racing, none, []⟩] }], ?_, rfl, rfl, rfl⟩
      simp [exec, step, hstage, Controller.advance, hface, hself]
  | duplicate unlisted known =>
      rw [Shared.handleConflict_duplicate _ unlisted known]
      refine ⟨List.replicate 3 (.advance thread),
        [{}, { events := [.duplicateRace conflict racing] },
          { handled := [⟨conflict, racing, some race, [conflict.id]⟩] }], ?_, rfl, rfl, rfl⟩
      simp [exec, step, hstage, Controller.advance, hface, hself, Phase.settle, Phase.next?,
        Phase.events, Table.get?_set, Table.set_set, race]
  | new unlisted unknown =>
      rw [Shared.handleConflict_new _ unlisted unknown]
      refine ⟨List.replicate 4 (.advance thread),
        [{}, { events := [.raceConfirmed (Shared.pairOf conflict racing)] },
          { events := [.raceFound conflict racing.captureStack] },
          { handled := [⟨conflict, racing, some race, [conflict.id]⟩] }], ?_, rfl, rfl, rfl⟩
      simp [exec, step, hstage, Controller.advance, hface, Phase.settle, Phase.next?,
        Phase.events, Table.get?_set, Table.set_set, race]

-- The conflicts of a call are handled one after the other, and then it returns or falls asleep.
theorem exec_handling (s : Interleaving) (thread : ThreadId) (racing : Point)
    (conflicts : List Trap) (race? : Option Race) (trap? : Option Trap)
    (hstage : s.stages.get? thread = some (.handling racing conflicts race? trap?)) :
    let handled := s.controller.shared.handleConflicts conflicts racing
    ∃ actions outputs,
      s.exec actions =
        some (outputs,
          { controller := s.controller.withShared fun _ => handled.shared
            stages := s.stages.set thread
              (trap?.map fun trap => .asleep { trap, race? := race?.or handled.race? }) }) ∧
      outputs.flatMap Output.events = handled.events ++ trap?.toList.map .trapSet ∧
      (outputs.flatMap Output.handled).flatMap Handling.released = handled.released ∧
      outputs.filterMap Output.result? =
        if trap?.isSome then [] else [handled.shared.finish (race?.or handled.race?)] := by
  induction conflicts generalizing s race? with
  | nil =>
      have hself := s.controller.withShared_self
      cases trap? with
      | none =>
          refine ⟨[.advance thread],
            [{ result? := some (s.controller.shared.finish race?) }], ?_⟩
          simp [exec, step, hstage, Controller.advance, Shared.handleConflicts, hself]
      | some trap =>
          refine ⟨[.advance thread], [{ events := [.trapSet trap] }], ?_⟩
          simp [exec, step, hstage, Controller.advance, Shared.handleConflicts, hself]
  | cons conflict rest ih =>
      -- once the first conflict is handled, the thread handles the others
      let one := Shared.handleConflict racing { shared := s.controller.shared } conflict
      let next : Interleaving :=
        { controller := s.controller.withShared fun _ => one.shared
          stages := s.stages.set thread
            (some (.handling racing rest (race?.or one.race?) trap?)) }
      obtain ⟨first, told, hfirst, hfirstEvents, hfirstHandled, hfirstResult⟩ :=
        s.exec_conflict thread racing conflict rest race? trap? hstage
      obtain ⟨actions, outputs, hexec, hevents, hreleased, hresult⟩ :=
        ih next (race?.or one.race?) (by simp [next, Table.get?_set])
      have hall : s.controller.shared.handleConflicts (conflict :: rest) racing =
          { shared := (one.shared.handleConflicts rest racing).shared
            race? := one.race?.or (one.shared.handleConflicts rest racing).race?
            events := one.events ++ (one.shared.handleConflicts rest racing).events
            released := one.released ++ (one.shared.handleConflicts rest racing).released } :=
        Shared.foldl_handleConflict_eq racing rest one
      have hnext : next.controller.shared = one.shared := by simp [next]
      have hcontroller : ∀ shared : Shared, next.controller.withShared (fun _ => shared) =
          s.controller.withShared fun _ => shared := fun shared =>
        s.controller.withShared_withShared (fun _ => one.shared) (fun _ => shared)
      have hstages : ∀ stage?, next.stages.set thread stage? = s.stages.set thread stage? :=
        fun stage? => s.stages.set_set thread _ stage?
      rw [hnext, hcontroller, hstages] at hexec
      rw [hnext] at hevents hreleased hresult
      refine ⟨first ++ actions, told ++ outputs, ?_, ?_, ?_, ?_⟩
      · rw [hall, exec_append hfirst hexec, Option.or_assoc]
      · rw [List.flatMap_append, hfirstEvents, hevents, hall, List.append_assoc]
      · rw [List.flatMap_append, List.flatMap_append, hfirstHandled, hreleased, hall,
          List.flatMap_singleton]
      · rw [List.filterMap_append, hfirstResult, List.nil_append, hresult, hall, Option.or_assoc]

-- An access is checked and settled, from the stage before its check.
theorem exec_checking (s : Interleaving) (thread : ThreadId) (access : Access)
    (hstage : s.stages.get? thread = some (.checking access)) (events : List Event) :
    let (races, trap?, c) := s.controller.check access
    let (arrival, settled) := c.settle access.point events races trap?
    ∃ actions outputs,
      s.exec actions =
        some (outputs,
          { controller := settled
            stages := s.stages.set thread
              (match arrival.outcome with
                | .returned _ => none
                | .waiting wait => some (.asleep wait)) }) ∧
      events ++ outputs.flatMap Output.events = arrival.events ∧
      (outputs.flatMap Output.handled).flatMap Handling.released = arrival.released ∧
      outputs.filterMap Output.result? =
        match arrival.outcome with
        | .returned result => [result]
        | .waiting _ => [] := by
  cases hcheck : s.controller.check access with
  | mk races rest =>
      obtain ⟨trap?, c⟩ := rest
      dsimp only
      let checked : Interleaving :=
        { controller := c
          stages := s.stages.set thread (some (.handling access.point races none trap?)) }
      have hadvance : s.step (.advance thread) = some ({}, checked) := by
        simp [step, hstage, Controller.advance, hcheck, checked]
      obtain ⟨actions, outputs, hexec, hevents, hreleased, hresult⟩ :=
        checked.exec_handling thread access.point races none trap?
          (by simp [checked, Table.get?_set])
      have hstages : ∀ stage?, checked.stages.set thread stage? = s.stages.set thread stage? :=
        fun stage? => s.stages.set_set thread _ stage?
      rw [hstages] at hexec
      refine ⟨.advance thread :: actions, {} :: outputs, ?_, ?_, ?_, ?_⟩
      · refine exec_cons hadvance ?_
        rw [hexec]
        cases trap? <;> simp [Controller.settle, checked]
      · simp [hevents, Controller.settle, checked]
      · simp [hreleased, Controller.settle, checked]
      · cases trap? <;> simp [hresult, Controller.settle, checked]

end Interleaving

namespace Run

inductive Step
  | call (call : Call)
  | wake (thread : ThreadId)
  | forget (address : Address)

-- One step, if it is possible: only a free thread calls, and only a parked one wakes up.
def step (run : Run) : Step → Option Run
  | .call call => (run.call call).map (·.2)
  | .wake thread => (run.wake thread).map (·.2)
  | .forget address => some (run.forget address).2.2

def exec (run : Run) (steps : List Step) : Option Run := steps.foldlM step run

theorem exec_append (run : Run) (first second : List Step) :
    run.exec (first ++ second) = (run.exec first).bind (·.exec second) :=
  List.foldlM_append

theorem exec_concat (run : Run) (steps : List Step) (last : Step) :
    run.exec (steps ++ [last]) = (run.exec steps).bind (·.step last) := by
  rw [exec_append]
  cases run.exec steps with
  | none => rfl
  | some middle =>
      change (middle.step last).bind some = middle.step last
      cases middle.step last <;> rfl

-- What every step preserves holds after every run.
theorem exec_induction {P : Run → Prop}
    (hstep : ∀ run step next, P run → run.step step = some next → P next) {start run : Run}
    {steps : List Step} (h : start.exec steps = some run) (hstart : P start) : P run := by
  induction steps using List.reverseRecOn generalizing run with
  | nil => exact Option.some.inj h ▸ hstart
  | append_singleton steps last ih =>
      rw [exec_concat] at h
      obtain ⟨middle, hm, hlast⟩ := Option.bind_eq_some_iff.mp h
      exact hstep middle last run (ih hm) hlast

-- The threads of a run between two steps: the parked ones sleep in their traps.
def interleaving (run : Run) : Interleaving where
  controller := run.controller
  stages := run.parked.mapValues fun parked => .asleep parked.wait

theorem stage_of_parked {run : Run} {thread : ThreadId} {parked : Parked}
    (h : run.parked.get? thread = some parked) :
    run.interleaving.stages.get? thread = some (.asleep parked.wait) := by
  simp [interleaving, Table.get?_mapValues, h]

theorem stages_signal (released : List Nat) (parked : Table ThreadId Parked) :
    ((signal released parked).mapValues fun parked => Stage.asleep parked.wait) =
      parked.mapValues fun parked => .asleep parked.wait := by
  apply Table.mapValues_mapEntries
  intro _ thread
  split <;> rfl

theorem call_eq_some_iff {run run' : Run} {call : Call} {arrival : Arrival} :
    run.call call = some (arrival, run') ↔
      run.parked.get? call.thread = none ∧ arrival = (run.controller.onCall call).1 ∧
        run' =
          { controller := (run.controller.onCall call).2
            parked := match arrival.outcome with
              | .returned _ => signal arrival.released run.parked
              | .waiting wait =>
                  (signal arrival.released run.parked).insert call.thread { wait } } := by
  cases hcall : run.controller.onCall call with
  | mk arrived controller =>
      simp only [Run.call, hcall, ← Table.contains_eq_false_iff]
      constructor
      · intro h
        split at h
        · cases h
        · rename_i hfree
          obtain ⟨rfl, rfl⟩ := Prod.mk.inj (Option.some.inj h)
          exact ⟨by simpa using hfree, rfl, rfl⟩
      · rintro ⟨hfree, rfl, rfl⟩
        refine (if_neg (by simp [hfree])).trans ?_
        cases arrival.outcome <;> rfl

-- A call that goes through without interruption.
theorem call_sections {run run' : Run} {call : Call} {arrival : Arrival}
    (h : run.call call = some (arrival, run')) :
    ∃ actions outputs, run.interleaving.exec actions = some (outputs, run'.interleaving) ∧
      outputs.flatMap Output.events = arrival.events ∧
      (outputs.flatMap Output.handled).flatMap Handling.released = arrival.released ∧
      outputs.filterMap Output.result? =
        match arrival.outcome with
        | .returned result => [result]
        | .waiting _ => [] := by
  obtain ⟨hfree, harrival, hrun⟩ := call_eq_some_iff.mp h
  have habsent : run.interleaving.stages.get? call.thread = none := by
    simp [interleaving, Table.get?_mapValues, hfree]
  have hbusy := (Table.contains_eq_false_iff _ _).mpr habsent
  have herase := Table.erase_of_get?_eq_none habsent
  rw [Controller.onCall_eq] at harrival hrun
  cases happroach : run.controller.approach call with
  | mk events reached =>
      obtain ⟨access?, c⟩ := reached
      have harrive : run.interleaving.step (.arrive call) =
          some ({ events, result? := if access?.isNone then some (.ok ()) else none },
            { controller := c
              stages := run.interleaving.stages.set call.thread (access?.map .checking) }) := by
        have hc : run.interleaving.controller.approach call = (events, access?, c) := happroach
        simp only [Interleaving.step, hbusy, hc, Bool.false_eq_true, if_false]
      rw [happroach] at harrival hrun
      cases access? with
      | none =>
          -- without a class the call is over, and its thread was never busy
          subst harrival hrun
          refine ⟨[.arrive call], [{ events, result? := some (.ok ()) }], ?_, by simp, by simp,
            by simp⟩
          simp only [Interleaving.exec, harrive, Option.map_some, Option.map_none, Table.set,
            herase]
          simp [interleaving, stages_signal]
      | some access =>
          -- the call is approached, then checked and settled by the same thread
          have hchecked := Interleaving.exec_checking
            { controller := c
              stages := run.interleaving.stages.set call.thread (some (.checking access)) }
            call.thread access (by simp [Table.get?_set]) events
          dsimp only at harrival hrun hchecked
          generalize c.check access = checked at harrival hrun hchecked
          obtain ⟨races, trap?, after⟩ := checked
          dsimp only at harrival hrun hchecked
          generalize after.settle access.point events races trap? = settled
            at harrival hrun hchecked
          obtain ⟨settled, final⟩ := settled
          dsimp only at harrival hrun hchecked
          subst harrival
          obtain ⟨actions, outputs, hexec, hevents, hreleased, hresult⟩ := hchecked
          rw [Table.set_set] at hexec
          refine ⟨_, { events } :: outputs,
            (Interleaving.exec_cons harrive hexec).trans ?_, ?_, ?_, ?_⟩
          · rw [hrun]
            cases arrival.outcome with
            | returned result =>
                simp only [Table.set, herase]
                simp [interleaving, stages_signal]
            | waiting wait =>
                simp [interleaving, stages_signal, Table.set, Table.mapValues_insert]
          · simpa using hevents
          · simpa using hreleased
          · simpa using hresult

theorem wake_eq_some_iff {run run' : Run} {thread : ThreadId} {result : CallResult} :
    run.wake thread = some (result, run') ↔
      ∃ parked, run.parked.get? thread = some parked ∧
        result = (run.controller.resume parked.wait).1 ∧
        run' =
          { controller := (run.controller.resume parked.wait).2
            parked := run.parked.erase thread } := by
  unfold Run.wake
  cases hget : run.parked.get? thread with
  | none => simp
  | some parked =>
      constructor
      · intro h
        obtain ⟨rfl, rfl⟩ := Prod.mk.inj (Option.some.inj h)
        exact ⟨parked, rfl, rfl, rfl⟩
      · rintro ⟨_, he, rfl, rfl⟩
        obtain rfl := Option.some.inj he
        rfl

-- A wake-up that goes through without interruption.
theorem wake_sections {run run' : Run} {thread : ThreadId} {result : CallResult}
    (h : run.wake thread = some (result, run')) :
    run.interleaving.exec [.advance thread, .advance thread, .advance thread] =
      some ([{}, {}, { result? := some result }], run'.interleaving) := by
  obtain ⟨parked, hget, hresult, hrun⟩ := wake_eq_some_iff.mp h
  rw [Controller.resume_eq] at hresult hrun
  have hstage := stage_of_parked hget
  let awake : Interleaving :=
    { controller := run.controller.afterWait parked.wait
      stages := run.interleaving.stages.set thread (some (.awake parked.wait)) }
  let removed : Interleaving :=
    { controller := awake.controller.withShared (·.removeTrap parked.wait.trap)
      stages := awake.stages.set thread (some (.removed parked.wait)) }
  have hwake : run.interleaving.step (.advance thread) = some ({}, awake) := by
    simp only [Interleaving.step, hstage, Controller.advance, awake]
    rfl
  have hremove : awake.step (.advance thread) = some ({}, removed) := by
    simp [Interleaving.step, awake, Table.get?_set, Controller.advance, removed]
  have hleave : removed.step (.advance thread) =
      some ({ result? := some result }, run'.interleaving) := by
    rw [hresult, hrun]
    simp [Interleaving.step, removed, awake, Table.get?_set, Controller.advance, Table.set_set]
    simp [interleaving, Table.set, Table.mapValues_erase]
  exact Interleaving.exec_cons hwake
    (Interleaving.exec_cons hremove (Interleaving.exec_cons hleave rfl))

-- Every run is an interleaving in which no call is interrupted.
theorem exec_sections {start run : Run} {steps : List Step} (h : start.exec steps = some run) :
    ∃ actions outputs, start.interleaving.exec actions = some (outputs, run.interleaving) := by
  refine exec_induction (P := fun run => ∃ actions outputs,
    start.interleaving.exec actions = some (outputs, run.interleaving)) ?_ h ⟨[], [], rfl⟩
  rintro run step next ⟨actions, outputs, hexec⟩ hstep
  cases step with
  | call call =>
      obtain ⟨⟨arrival, _⟩, hcall, rfl⟩ := Option.map_eq_some_iff.mp hstep
      obtain ⟨more, told, hmore, -⟩ := call_sections hcall
      exact ⟨_, _, Interleaving.exec_append hexec hmore⟩
  | wake thread =>
      obtain ⟨⟨result, _⟩, hwake, rfl⟩ := Option.map_eq_some_iff.mp hstep
      exact ⟨_, _, Interleaving.exec_append hexec (wake_sections hwake)⟩
  | forget address =>
      obtain rfl := Option.some.inj hstep
      have hforget : run.interleaving.exec [.forget address] =
          some ([{ events := (run.forget address).2.1 }],
            (run.forget address).2.2.interleaving) := rfl
      exact ⟨_, _, Interleaving.exec_append hexec hforget⟩

end Run

end DelayInjection
