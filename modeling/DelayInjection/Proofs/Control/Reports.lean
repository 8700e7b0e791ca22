import DelayInjection.Proofs.Detector

-- The races of a run: the ledger takes down a pair of locations when a conflict with it is first
-- faced, unless earlier runs confirmed it. From then on one thread has the pair in hand, until it
-- has confirmed the race, reported it and released the trap.

namespace DelayInjection

namespace Event

-- The trap of a conflict that counts as a race, reported or known.
def raced? : Event → Option Trap
  | .raceFound trap _ => some trap
  | .duplicateRace trap _ => some trap
  | _ => none

def report? : Event → Option (Trap × Point)
  | .raceFound trap racing => some (trap, racing)
  | _ => none

def confirmed? : Event → Option LocationPair
  | .raceConfirmed pair => some pair
  | _ => none

def races (events : List Event) : List Trap := events.filterMap raced?

def reports (events : List Event) : List (Trap × Point) := events.filterMap report?

def newPairs (events : List Event) : List LocationPair :=
  (reports events).map fun report => Shared.pairOf report.1 report.2

def confirmedPairs (events : List Event) : List LocationPair := events.filterMap confirmed?

theorem races_append (first second : List Event) :
    races (first ++ second) = races first ++ races second :=
  List.filterMap_append

theorem reports_append (first second : List Event) :
    reports (first ++ second) = reports first ++ reports second :=
  List.filterMap_append

theorem newPairs_append (first second : List Event) :
    newPairs (first ++ second) = newPairs first ++ newPairs second := by
  rw [newPairs, reports_append, List.map_append]
  rfl

theorem confirmedPairs_append (first second : List Event) :
    confirmedPairs (first ++ second) = confirmedPairs first ++ confirmedPairs second :=
  List.filterMap_append

def ofConflict : Event → Bool
  | .raceConfirmed _ | .raceFound _ _ | .duplicateRace _ _ => true
  | _ => false

-- Events that tell of no conflict.
def Raceless (events : List Event) : Prop := ∀ event ∈ events, event.ofConflict = false

section

variable {events first second : List Event}

theorem raceless_nil : Raceless [] := fun _ hm => absurd hm List.not_mem_nil

theorem Raceless.append (h : Raceless first) (h' : Raceless second) : Raceless (first ++ second) :=
  List.forall_mem_append.mpr ⟨h, h'⟩

theorem Raceless.filterMap_eq_nil {α : Type} {f : Event → Option α} (h : Raceless events)
    (hf : ∀ event : Event, event.ofConflict = false → f event = none) :
    events.filterMap f = [] :=
  List.filterMap_eq_nil_iff.mpr fun event hm => hf event (h event hm)

theorem Raceless.races_eq (h : Raceless events) : races events = [] :=
  h.filterMap_eq_nil fun event hq => by cases event <;> first | rfl | cases hq

theorem Raceless.newPairs_eq (h : Raceless events) : newPairs events = [] := by
  have hreports : reports events = [] :=
    h.filterMap_eq_nil fun event hq => by cases event <;> first | rfl | cases hq
  rw [newPairs, hreports]
  rfl

theorem Raceless.confirmedPairs_eq (h : Raceless events) : confirmedPairs events = [] :=
  h.filterMap_eq_nil fun event hq => by cases event <;> first | rfl | cases hq

end

end Event

namespace Learned

theorem raceless_discoverPair (later : Point) {state : List Event × Learned} (earlier : Point)
    (h : Event.Raceless state.1) : Event.Raceless (discoverPair later state earlier).1 := by
  obtain ⟨events, c⟩ := state
  simp only [discoverPair]
  split
  · dsimp only
    split
    · exact h.append (by simp [Event.Raceless, Event.ofConflict])
    · exact h
  · exact h

theorem raceless_discoverPairs (c : Learned) (group : String) (point : Point) :
    Event.Raceless (c.discoverPairs group point).1 :=
  discoverPairs_induction (P := fun state => Event.Raceless state.1) c group point
    (fun _ earlier h => raceless_discoverPair point earlier h) Event.raceless_nil

theorem raceless_pruneHappensBefore (c : Learned) (point : Point) :
    Event.Raceless (c.pruneHappensBefore point).1 := by
  have hpruned := c.pruned point
  generalize c.pruneHappensBefore point = pruning at hpruned ⊢
  cases hpruned with
  | unstalled | unpaid threads => exact Event.raceless_nil
  | paid blocker credits threads =>
      dsimp only
      split
      · simp [Event.Raceless, Event.ofConflict]
      · exact Event.raceless_nil

theorem raceless_learn (c : Learned) (group : String) (point : Point) :
    Event.Raceless (c.learn group point).1 := by
  unfold learn
  split
  · exact (c.raceless_discoverPairs group point).append (raceless_pruneHappensBefore _ point)
  · exact Event.raceless_nil

theorem raceless_approach (c : Learned) (call : Call) : Event.Raceless (c.approach call).1 := by
  have hmatched : Event.Raceless (c.matched call) := by
    unfold matched
    split
    · simp [Event.Raceless, Event.ofConflict]
    · exact Event.raceless_nil
  have happroached := c.approached call
  generalize c.approach call = approach at happroached ⊢
  cases happroached with
  | noted unclassed => exact hmatched
  | learned classification classed => exact hmatched.append (raceless_learn _ _ _)

end Learned

namespace Controller

theorem raceless_approach (c : Controller) (call : Call) : Event.Raceless (c.approach call).1 := by
  cases c with
  | randomized c => exact Event.raceless_nil
  | learned c => exact c.raceless_approach call

theorem raceless_forget (c : Controller) (address : Address) :
    Event.Raceless (c.forget address).2.1 := by
  cases c with
  | randomized c => exact Event.raceless_nil
  | learned c =>
      simp only [forget, Learned.forget]
      split
      · exact Event.raceless_nil
      · simp [Event.Raceless, Event.ofConflict]

end Controller

-- What a call learns from a conflict: nothing when the pair is blacklisted, else the race, and
-- the trap is released whether the race is new or not.
def Handling.Answered (blacklist : List LocationPair) (handling : Handling) : Prop :=
  if handling.pair ∈ blacklist then handling.race? = none ∧ handling.released = []
  else handling.race? = some (Shared.raceOf handling.trap handling.racing) ∧
    handling.released = [handling.trap.id]

namespace Shared

variable (shared : Shared) (racing : Point) (trap : Trap)

-- A conflict is an event of its own when its pair is new.
theorem newPairs_handleConflict :
    Event.newPairs (handleConflict racing { shared } trap).events =
      if pairOf trap racing ∉ shared.ledger.blacklist ∧ pairOf trap racing ∉ shared.ledger.seen
      then [pairOf trap racing] else [] := by
  by_cases hb : pairOf trap racing ∈ shared.ledger.blacklist
  · rw [handleConflict_blacklisted _ hb, if_neg fun hnew => hnew.1 hb]
    rfl
  · by_cases hs : pairOf trap racing ∈ shared.ledger.seen
    · rw [handleConflict_duplicate _ hb hs, if_neg fun hnew => hnew.2 hs]
      rfl
    · rw [handleConflict_new _ hb hs, if_pos ⟨hb, hs⟩]
      rfl

-- The ledger remembers the pairs of the events.
theorem handleConflict_ledger :
    (handleConflict racing { shared } trap).shared.ledger =
      { blacklist := shared.ledger.blacklist
        seen := shared.ledger.seen ++
          Event.newPairs (handleConflict racing { shared } trap).events } := by
  rw [newPairs_handleConflict]
  by_cases hb : pairOf trap racing ∈ shared.ledger.blacklist
  · rw [handleConflict_blacklisted _ hb, if_neg fun hnew => hnew.1 hb, List.append_nil]
  · by_cases hs : pairOf trap racing ∈ shared.ledger.seen
    · rw [handleConflict_duplicate _ hb hs, if_neg fun hnew => hnew.2 hs, List.append_nil]
    · rw [handleConflict_new _ hb hs, if_pos ⟨hb, hs⟩]

theorem handleConflict_answered :
    let handled := handleConflict racing { shared } trap
    Handling.Answered shared.ledger.blacklist ⟨trap, racing, handled.race?, handled.released⟩ := by
  by_cases hb : pairOf trap racing ∈ shared.ledger.blacklist
  · rw [handleConflict_blacklisted _ hb]
    simp [Handling.Answered, Handling.pair, hb]
  · by_cases hs : pairOf trap racing ∈ shared.ledger.seen
    · rw [handleConflict_duplicate _ hb hs]
      simp [Handling.Answered, Handling.pair, hb]
    · rw [handleConflict_new _ hb hs]
      simp [Handling.Answered, Handling.pair, hb]

end Shared

namespace Stage

-- The pair of the race that a thread has in hand.
def inHand? : Stage → Option LocationPair
  | .settling _ racing conflict _ _ _ => some (Shared.pairOf conflict racing)
  | _ => none

-- That pair as long as the ledger is the only one to know of it, or besides it the bug file.
def unreported? : Stage → Option LocationPair
  | .settling .confirming racing conflict _ _ _ => some (Shared.pairOf conflict racing)
  | .settling .reporting racing conflict _ _ _ => some (Shared.pairOf conflict racing)
  | _ => none

-- That pair while it is confirmed and not yet reported.
def reporting? : Stage → Option LocationPair
  | .settling .reporting racing conflict _ _ _ => some (Shared.pairOf conflict racing)
  | _ => none

theorem rest_of_inHand {stage : Stage} (h : stage.inHand? = none) :
    stage.unreported? = none ∧ stage.reporting? = none := by
  cases stage with
  | settling _ _ _ _ _ _ => cases h
  | _ => exact ⟨rfl, rfl⟩

end Stage

namespace Interleaving

def inHand (s : Interleaving) : List LocationPair := s.stages.values.filterMap Stage.inHand?

def unreported (s : Interleaving) : List LocationPair :=
  s.stages.values.filterMap Stage.unreported?

def reporting (s : Interleaving) : List LocationPair := s.stages.values.filterMap Stage.reporting?

-- The stages of the one thread that an action moves, if it moves one.
structure Moved (s s' : Interleaving) (before after : Option Stage) : Prop where
  values : (s'.stages.values ++ before.toList).Perm (after.toList ++ s.stages.values)
  before_mem : ∀ stage ∈ before, stage ∈ s.stages.values
  after_mem : ∀ stage ∈ after, stage ∈ s'.stages.values

-- How a pair passes from the bug file to the reports: what is confirmed is to be reported next.
inductive Passes : Option LocationPair → List LocationPair → List LocationPair →
    Option LocationPair → Prop
  | idle (pair? : Option LocationPair) : Passes pair? [] [] pair?
  | confirmed (pair : LocationPair) : Passes none [pair] [] (some pair)
  | reported (pair : LocationPair) : Passes (some pair) [] [pair] none

theorem Passes.perm {before after : Option LocationPair} {confirmed reported : List LocationPair}
    (h : Passes before confirmed reported after) :
    (confirmed ++ before.toList).Perm (reported ++ after.toList) := by
  cases h <;> exact .refl _

-- What an action does to the races, given the stages of its thread and the pairs that it adds to
-- the ledger. A pair is taken in hand if it is not blacklisted, and only one that is in hand or
-- blacklisted is handled.
structure Turned (ledger : RaceLedger) (before after : Option Stage) (output : Output)
    (added : List LocationPair) : Prop where
  nodup : added.Nodup
  unknown : ∀ pair ∈ added, pair ∉ ledger.blacklist ∧ pair ∉ ledger.seen
  taken : ∀ pair ∈ added, after.bind Stage.inHand? = some pair
  opened : ∀ pair, after.bind Stage.inHand? = some pair → before.bind Stage.inHand? = some pair ∨
    pair ∉ ledger.blacklist ∧ pair ∈ ledger.seen ++ added
  closed : ∀ pair, before.bind Stage.inHand? = some pair → after.bind Stage.inHand? = some pair ∨
    ∃ handling ∈ output.handled, handling.pair = pair
  handled : ∀ handling ∈ output.handled, handling.pair ∈ ledger.blacklist ∨
    before.bind Stage.inHand? = some handling.pair
  answered : ∀ handling ∈ output.handled,
    (before.bind Stage.inHand? = some handling.pair → handling.pair ∉ ledger.blacklist) →
      handling.Answered ledger.blacklist
  reported : (Event.newPairs output.events ++ (after.bind Stage.unreported?).toList).Perm
    ((before.bind Stage.unreported?).toList ++ added)
  passes : Passes (before.bind Stage.reporting?) (Event.confirmedPairs output.events)
    (Event.newPairs output.events) (after.bind Stage.reporting?)

section

variable {ledger : RaceLedger} {before after : Option Stage} {output : Output}

-- An action that has to do with no conflict.
theorem Turned.quiet (hbefore : before.bind Stage.inHand? = none)
    (hafter : after.bind Stage.inHand? = none) (hquiet : Event.Raceless output.events)
    (hhandled : output.handled = []) : Turned ledger before after output [] := by
  have hnone : ∀ stage? : Option Stage, stage?.bind Stage.inHand? = none →
      stage?.bind Stage.unreported? = none ∧ stage?.bind Stage.reporting? = none := by
    intro stage? h
    cases stage? with
    | none => exact ⟨rfl, rfl⟩
    | some stage => exact Stage.rest_of_inHand h
  obtain ⟨hunreported, hreporting⟩ := hnone before hbefore
  obtain ⟨hunreported', hreporting'⟩ := hnone after hafter
  refine ⟨List.nodup_nil, by simp, by simp, ?_, ?_, ?_, ?_, ?_, ?_⟩
  · simp [hafter]
  · simp [hbefore]
  · simp [hhandled]
  · simp [hhandled]
  · simp [hquiet.newPairs_eq, hunreported, hunreported']
  · rw [hquiet.newPairs_eq, hquiet.confirmedPairs_eq, hreporting, hreporting']
    exact .idle none

-- A conflict that is faced is handled at once if it is blacklisted, and taken in hand otherwise.
theorem turned_face {shared : Shared} {racing : Point} {conflict : Trap} {rest : List Trap}
    {race? : Option Race} {trap? : Option Trap} {output : Output} {stage : Stage} {after : Shared}
    (h : shared.Faced racing conflict rest race? trap? (output, stage, after)) :
    ∃ added, after.ledger =
        { shared.ledger with seen := shared.ledger.seen ++ added } ∧
      Turned shared.ledger (some (.handling racing (conflict :: rest) race? trap?)) (some stage)
        output added := by
  cases h with
  | blacklisted listed =>
      refine ⟨[], by rw [List.append_nil], List.nodup_nil, by simp, by simp, nofun, nofun, ?_, ?_,
        .refl _, .idle none⟩
      · intro handling hm
        obtain rfl := List.mem_singleton.mp hm
        exact .inl listed
      · intro handling hm _
        obtain rfl := List.mem_singleton.mp hm
        exact (if_pos listed).mpr ⟨rfl, rfl⟩
  | duplicate unlisted known =>
      refine ⟨[], by rw [List.append_nil], List.nodup_nil, by simp, by simp, ?_, nofun, by simp,
        by simp, .refl _, .idle none⟩
      intro pair hpair
      obtain rfl := Option.some.inj hpair
      exact .inr ⟨unlisted, List.mem_append_left _ known⟩
  | new unlisted unknown =>
      refine ⟨[Shared.pairOf conflict racing], rfl, List.nodup_singleton _, ?_, ?_, ?_, nofun,
        by simp, by simp, .refl _, .idle none⟩
      · intro pair hm
        obtain rfl := List.mem_singleton.mp hm
        exact ⟨unlisted, unknown⟩
      · intro pair hm
        obtain rfl := List.mem_singleton.mp hm
        rfl
      · intro pair hpair
        obtain rfl := Option.some.inj hpair
        exact .inr ⟨unlisted, List.mem_append_right _ (List.mem_singleton_self _)⟩

-- A race stays in hand until its trap is released, whatever else is done about it before.
theorem turned_settle (ledger : RaceLedger) (phase : Phase) (racing : Point) (conflict : Trap)
    (rest : List Trap) (race? : Option Race) (trap? : Option Trap) :
    Turned ledger (some (.settling phase racing conflict rest race? trap?))
      (some (phase.settle racing conflict rest race? trap?).2)
      (phase.settle racing conflict rest race? trap?).1 [] := by
  have hkept : ∀ {other : Phase} {output : Output}, output.handled = [] →
      (Event.newPairs output.events ++
        ((Stage.settling other racing conflict rest race? trap?).unreported?).toList).Perm
          (((Stage.settling phase racing conflict rest race? trap?).unreported?).toList ++ []) →
      Passes (Stage.settling phase racing conflict rest race? trap?).reporting?
        (Event.confirmedPairs output.events) (Event.newPairs output.events)
        (Stage.settling other racing conflict rest race? trap?).reporting? →
      Turned ledger (some (.settling phase racing conflict rest race? trap?))
        (some (.settling other racing conflict rest race? trap?)) output [] := by
    intro other output hhandled hreported hpasses
    exact ⟨List.nodup_nil, by simp, by simp, fun _ h => .inl h, fun _ h => .inl h,
      by simp [hhandled], by simp [hhandled], hreported, hpasses⟩
  cases phase with
  | confirming => exact hkept rfl (.refl _) (.confirmed _)
  | reporting => exact hkept rfl (.refl _) (.reported _)
  | suppressing => exact hkept rfl (.refl _) (.idle none)
  | releasing =>
      refine ⟨List.nodup_nil, by simp, by simp, nofun, ?_, ?_, ?_, .refl _, .idle none⟩
      · intro pair hpair
        obtain rfl := Option.some.inj hpair
        exact .inr ⟨_, List.mem_singleton_self _, rfl⟩
      · intro handling hm
        obtain rfl := List.mem_singleton.mp hm
        exact .inr rfl
      · intro handling hm hunlisted
        obtain rfl := List.mem_singleton.mp hm
        exact (if_neg (hunlisted rfl)).mpr ⟨rfl, rfl⟩

end

theorem Moved.of_set {s : Interleaving} {thread : ThreadId} {before : Option Stage}
    (hbefore : s.stages.get? thread = before) (after : Option Stage) (controller : Controller) :
    Moved s { controller, stages := s.stages.set thread after } before after where
  values := hbefore ▸ s.stages.values_set_perm thread after
  before_mem stage hm := Table.mem_values_of_get? (hbefore.trans hm)
  after_mem stage hm := Table.mem_values_of_get? (by rw [Table.get?_set, if_pos rfl, hm])

theorem advance_turned (c : Controller) (stage : Stage) :
    ∃ added, (c.advance stage).2.2.shared.ledger =
        { c.shared.ledger with seen := c.shared.ledger.seen ++ added } ∧
      Turned c.shared.ledger (some stage) (c.advance stage).2.1 (c.advance stage).1 added := by
  have hsame : ∀ ledger : RaceLedger, ledger = { ledger with seen := ledger.seen ++ [] } :=
    fun ledger => by rw [List.append_nil]
  cases stage with
  | checking access =>
      refine ⟨[], ?_, .quiet rfl rfl Event.raceless_nil rfl⟩
      rw [← hsame]
      exact (c.check_booking access).ledger_eq
  | handling racing conflicts race? trap? =>
      cases conflicts with
      | cons conflict rest =>
          have hfaced := c.shared.faced racing conflict rest race? trap?
          simp only [Controller.advance, Controller.shared_withShared]
          exact turned_face hfaced
      | nil =>
          cases trap? with
          | none => exact ⟨[], hsame _, .quiet rfl rfl Event.raceless_nil rfl⟩
          | some trap =>
              exact ⟨[], hsame _, .quiet rfl rfl (by simp [Controller.advance, Event.Raceless,
                Event.ofConflict]) rfl⟩
  | settling phase racing conflict rest race? trap? =>
      exact ⟨[], hsame _, turned_settle _ phase racing conflict rest race? trap?⟩
  | asleep wait =>
      refine ⟨[], ?_, .quiet rfl rfl Event.raceless_nil rfl⟩
      rw [← hsame, Controller.advance, Controller.shared_afterWait]
  | awake wait | removed wait =>
      refine ⟨[], ?_, .quiet rfl rfl Event.raceless_nil rfl⟩
      rw [← hsame, Controller.advance, Controller.shared_withShared]
      rfl

theorem step_turned {s s' : Interleaving} {action : Action} {output : Output}
    (h : s.step action = some (output, s')) :
    ∃ before after added, Moved s s' before after ∧
      s'.controller.shared.ledger =
        { s.controller.shared.ledger with seen := s.controller.shared.ledger.seen ++ added } ∧
      Turned s.controller.shared.ledger before after output added := by
  cases stepped h with
  | arrive call free =>
      refine ⟨none, _, [], .of_set free _ _, ?_, .quiet rfl ?_ ?_ rfl⟩
      · rw [List.append_nil]
        exact (s.controller.alike_approach call).ledger
      · cases (s.controller.approach call).2.1 <;> rfl
      · exact s.controller.raceless_approach call
  | advance thread stage current =>
      obtain ⟨added, hledger, hturned⟩ := advance_turned s.controller stage
      exact ⟨some stage, _, added, .of_set current _ _, hledger, hturned⟩
  | forget address =>
      refine ⟨none, none, [], ⟨by simp, by simp, by simp⟩, ?_, .quiet rfl rfl ?_ rfl⟩
      · rw [List.append_nil]
        exact (s.controller.alike_forget address).ledger
      · exact s.controller.raceless_forget address

-- What is written to the bug file is told by itself.
theorem step_confirms {s s' : Interleaving} {action : Action} {output : Output}
    (h : s.step action = some (output, s')) :
    Event.confirmedPairs output.events = [] ∨
      ∃ pair, output.events = [.raceConfirmed pair] := by
  cases stepped h with
  | arrive call _ => exact .inl (s.controller.raceless_approach call).confirmedPairs_eq
  | forget address => exact .inl (s.controller.raceless_forget address).confirmedPairs_eq
  | advance thread stage _ =>
      cases stage with
      | handling racing conflicts race? trap? =>
          cases conflicts with
          | cons conflict rest =>
              have hfaced := s.controller.shared.face_events racing conflict rest race? trap?
              exact .inl (congrArg Event.confirmedPairs hfaced)
          | nil => cases trap? <;> exact .inl rfl
      | settling phase racing conflict rest race? trap? =>
          cases phase with
          | confirming => exact .inr ⟨_, rfl⟩
          | _ => exact .inl rfl
      | _ => exact .inl rfl

-- The ledger agrees with what the run has told so far, and with what its threads have in hand.
structure Reported (blacklist : List LocationPair) (events : List Event)
    (handled : List Handling) (s : Interleaving) : Prop where
  listed : s.controller.shared.ledger.blacklist = blacklist
  nodup : s.controller.shared.ledger.seen.Nodup
  reported : (Event.newPairs events ++ s.unreported).Perm s.controller.shared.ledger.seen
  confirmed : (Event.confirmedPairs events).Perm (Event.newPairs events ++ s.reporting)
  open_unlisted : ∀ pair ∈ s.inHand, pair ∉ blacklist
  mem : ∀ pair, pair ∈ s.controller.shared.ledger.seen ↔ pair ∉ blacklist ∧
    ((∃ handling ∈ handled, handling.pair = pair) ∨ pair ∈ s.inHand)
  answered : ∀ handling ∈ handled, handling.Answered blacklist

section

variable {blacklist : List LocationPair} {events : List Event} {handled : List Handling}
  {s s' : Interleaving} {before after : Option Stage} {output : Output}
  {added : List LocationPair}

theorem Moved.filterMap (h : Moved s s' before after) {α : Type} (f : Stage → Option α) :
    (s'.stages.values.filterMap f ++ (before.bind f).toList).Perm
      ((after.bind f).toList ++ s.stages.values.filterMap f) := by
  have hbind : ∀ stage? : Option Stage, stage?.toList.filterMap f = (stage?.bind f).toList := by
    intro stage?
    cases stage? with
    | none => rfl
    | some stage => cases hf : f stage <;> simp [hf]
  have hperm := h.values.filterMap f
  rwa [List.filterMap_append, List.filterMap_append, hbind, hbind] at hperm

theorem Moved.mem_inHand (h : Moved s s' before after) {pair : LocationPair} :
    (pair ∈ s'.inHand ∨ before.bind Stage.inHand? = some pair) ↔
      (after.bind Stage.inHand? = some pair ∨ pair ∈ s.inHand) := by
  have hmem := (h.filterMap Stage.inHand?).mem_iff (a := pair)
  simp only [List.mem_append, Option.mem_toList] at hmem
  exact hmem

theorem Moved.before_inHand (h : Moved s s' before after) {pair : LocationPair}
    (hpair : before.bind Stage.inHand? = some pair) : pair ∈ s.inHand := by
  obtain ⟨stage, hstage, hfound⟩ := Option.bind_eq_some_iff.mp hpair
  exact List.mem_filterMap.mpr ⟨stage, h.before_mem stage hstage, hfound⟩

theorem Moved.after_inHand (h : Moved s s' before after) {pair : LocationPair}
    (hpair : after.bind Stage.inHand? = some pair) : pair ∈ s'.inHand := by
  obtain ⟨stage, hstage, hfound⟩ := Option.bind_eq_some_iff.mp hpair
  exact List.mem_filterMap.mpr ⟨stage, h.after_mem stage hstage, hfound⟩

-- A pair is known to the ledger from the moment in which a thread takes it in hand.
theorem Reported.open_seen (h : Reported blacklist events handled s) {pair : LocationPair}
    (hm : pair ∈ s.inHand) : pair ∈ s.controller.shared.ledger.seen :=
  (h.mem pair).mpr ⟨h.open_unlisted pair hm, .inr hm⟩

theorem Reported.mem_step (h : Reported blacklist events handled s)
    (hmoved : Moved s s' before after)
    (hturned : Turned s.controller.shared.ledger before after output added)
    (pair : LocationPair) :
    pair ∈ s.controller.shared.ledger.seen ++ added ↔ pair ∉ blacklist ∧
      ((∃ handling ∈ handled ++ output.handled, handling.pair = pair) ∨ pair ∈ s'.inHand) := by
  have hlisted := h.listed
  rw [List.mem_append]
  constructor
  · rintro (hseen | hadded)
    · obtain ⟨hunlisted, ⟨handling, hm, rfl⟩ | hopen⟩ := (h.mem pair).mp hseen
      · exact ⟨hunlisted, .inl ⟨handling, List.mem_append_left _ hm, rfl⟩⟩
      · -- a pair in hand stays there, or its handling ends now
        refine ⟨hunlisted, ?_⟩
        rcases hmoved.mem_inHand.mpr (.inr hopen) with hlater | hbefore
        · exact .inr hlater
        · rcases hturned.closed pair hbefore with hafter | ⟨handling, hm, rfl⟩
          · exact .inr (hmoved.after_inHand hafter)
          · exact .inl ⟨handling, List.mem_append_right _ hm, rfl⟩
    · exact ⟨hlisted ▸ (hturned.unknown pair hadded).1,
        .inr (hmoved.after_inHand (hturned.taken pair hadded))⟩
  · rintro ⟨hunlisted, ⟨handling, hm, rfl⟩ | hopen⟩
    · rcases List.mem_append.mp hm with hm | hm
      · exact .inl ((h.mem _).mpr ⟨hunlisted, .inl ⟨handling, hm, rfl⟩⟩)
      · rcases hturned.handled handling hm with hblack | hbefore
        · exact absurd (hlisted ▸ hblack) hunlisted
        · exact .inl (h.open_seen (hmoved.before_inHand hbefore))
    · rcases hmoved.mem_inHand.mp (.inl hopen) with hafter | hbefore
      · rcases hturned.opened pair hafter with hbefore | ⟨-, hseen⟩
        · exact .inl (h.open_seen (hmoved.before_inHand hbefore))
        · exact List.mem_append.mp hseen
      · exact .inl (h.open_seen hbefore)

-- What was told and what is left of it make up a total. It stays so in a step in which what is told
-- and what a thread has left make up what it had and what is added.
theorem perm_of_moved {told left left' total new had has added : List LocationPair}
    (hsofar : (told ++ left).Perm total) (hmoved : (left' ++ had).Perm (has ++ left))
    (hnow : (new ++ has).Perm (had ++ added)) : (told ++ new ++ left').Perm (total ++ added) := by
  simp only [List.perm_iff_count, List.count_append] at *
  intro pair
  have hleft := hmoved pair
  have hstep := hnow pair
  have hbefore := hsofar pair
  omega

theorem Reported.step {action : Action} (h : Reported blacklist events handled s)
    (hstep : s.step action = some (output, s')) :
    Reported blacklist (events ++ output.events) (handled ++ output.handled) s' := by
  obtain ⟨before, after, added, hmoved, hledger, hturned⟩ := step_turned hstep
  have hlisted := h.listed
  refine ⟨?_, ?_, ?_, ?_, ?_, ?_, ?_⟩
  · rw [hledger]
    exact hlisted
  · rw [hledger]
    exact List.nodup_append'.mpr ⟨h.nodup, hturned.nodup, fun pair hseen hadded =>
      (hturned.unknown pair hadded).2 hseen⟩
  · rw [hledger, Event.newPairs_append]
    exact perm_of_moved h.reported (hmoved.filterMap Stage.unreported?) hturned.reported
  · have hnow := hturned.passes.perm.symm.trans List.perm_append_comm
    rw [Event.newPairs_append, Event.confirmedPairs_append]
    exact (perm_of_moved h.confirmed.symm (hmoved.filterMap Stage.reporting?) hnow).symm
  · intro pair hopen
    rcases hmoved.mem_inHand.mp (.inl hopen) with hafter | hbefore
    · rcases hturned.opened pair hafter with hbefore | ⟨hunlisted, -⟩
      · exact h.open_unlisted pair (hmoved.before_inHand hbefore)
      · exact hlisted ▸ hunlisted
    · exact h.open_unlisted pair hbefore
  · intro pair
    rw [hledger]
    exact h.mem_step hmoved hturned pair
  · intro handling hm
    rcases List.mem_append.mp hm with hm | hm
    · exact h.answered handling hm
    · have hanswered := hturned.answered handling hm
      rw [hlisted] at hanswered
      exact hanswered fun hbefore =>
        h.open_unlisted handling.pair (hmoved.before_inHand hbefore)

-- As long as one pair at most is confirmed and not reported, pairs are reported in the order in
-- which they are confirmed.
theorem confirmed_in_order {action : Action} (hstep : s.step action = some (output, s'))
    (h : Event.confirmedPairs events = Event.newPairs events ++ s.reporting)
    (hone : s.reporting.length ≤ 1) (hone' : s'.reporting.length ≤ 1) :
    Event.confirmedPairs (events ++ output.events) =
      Event.newPairs (events ++ output.events) ++ s'.reporting := by
  obtain ⟨before, after, added, hmoved, -, hturned⟩ := step_turned hstep
  have hmoves := hmoved.filterMap Stage.reporting?
  have hpasses := hturned.passes
  rw [Event.confirmedPairs_append, Event.newPairs_append, h, List.append_assoc, List.append_assoc]
  congr 1
  change (s'.reporting ++ _).Perm (_ ++ s.reporting) at hmoves
  generalize before.bind Stage.reporting? = before at hmoves hpasses
  generalize after.bind Stage.reporting? = after at hmoves hpasses
  generalize Event.confirmedPairs output.events = confirmed at hpasses ⊢
  generalize Event.newPairs output.events = reported at hpasses ⊢
  have hshort : ∀ {first second : List LocationPair}, first.Perm second → first.length ≤ 1 →
      first = second := by
    intro first second hperm hlength
    match first with
    | [] => exact (List.nil_perm.mp hperm).symm
    | [pair] => exact (List.perm_singleton.mp hperm.symm).symm
    | _ :: _ :: _ => simp at hlength
  cases hpasses with
  | idle pair? =>
      have hsame := (List.perm_append_right_iff _).mp (hmoves.trans List.perm_append_comm)
      rw [List.append_nil, List.nil_append, hshort hsame hone']
  | confirmed pair =>
      -- the pair is the only one to be reported now, so that there was none before
      rw [Option.toList_none, List.append_nil, Option.toList_some] at hmoves
      have hnow := hshort hmoves hone'
      have hbefore : s.reporting = [] := by
        rw [hnow] at hone'
        exact List.length_eq_zero_iff.mp (by simpa using hone')
      rw [hnow, hbefore]
      rfl
  | reported pair =>
      rw [Option.toList_none, List.nil_append, Option.toList_some] at hmoves
      have hbefore := hshort hmoves.symm hone
      have hnow : s'.reporting = [] := by
        rw [hbefore] at hone
        exact List.length_eq_zero_iff.mp (by simpa using hone)
      rw [hbefore, hnow]
      rfl

end

end Interleaving

end DelayInjection
