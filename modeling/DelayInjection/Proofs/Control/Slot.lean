import DelayInjection.Proofs.Control.Settings
import DelayInjection.Proofs.Detector

-- The single slot of the randomized controller. Buckets are locked one group at a time, so that
-- it is the order of claim, registration, removal and release that keeps a second trap out.

namespace DelayInjection

namespace Controller

theorem check_trapped (c : Controller) (hc : c.algorithm = .randomized) (access : Access)
    {trap : Trap} (h : (c.check access).2.1 = some trap) :
    c.shared.active.current = 0 ∧ access.point.isWrite = true := by
  cases c with
  | randomized c => exact (c.decide_trapped access.point access.classification h).2
  | learned c => cases hc

end Controller

namespace Interleaving

-- The trap that a thread is counted for.
def trapOf (s : Interleaving) (thread : ThreadId) : Option Trap :=
  (s.stages.get? thread).bind Stage.trap?

-- What an action does to the traps, to their count, and to the threads that are counted.
inductive Effect (s s' : Interleaving) : Action → Prop
  | quiet {action : Action}
      (traps : s'.controller.shared.traps = s.controller.shared.traps)
      (active : s'.controller.shared.active = s.controller.shared.active)
      (held : ∀ thread, s'.trapOf thread = s.trapOf thread) : Effect s s' action
  | claimed (thread : ThreadId) (access : Access) (trap : Trap)
      (stage : s.stages.get? thread = some (.checking access))
      (trapped : (s.controller.check access).2.1 = some trap)
      (isWrite : trap.isWrite = access.classification.isWrite)
      (wrote : trap.point.isWrite = access.point.isWrite)
      (traps : s'.controller.shared.traps.all.Perm (trap :: s.controller.shared.traps.all))
      (active : s'.controller.shared.active = s.controller.shared.active.enter)
      (held : ∀ other, s'.trapOf other = if thread = other then some trap else s.trapOf other) :
      Effect s s' (.advance thread)
  | removed (thread : ThreadId) (trap : Trap)
      (traps : s'.controller.shared.traps = s.controller.shared.traps.remove trap)
      (active : s'.controller.shared.active = s.controller.shared.active)
      (held : ∀ thread, s'.trapOf thread = s.trapOf thread) : Effect s s' (.advance thread)
  | freed (thread : ThreadId) (trap : Trap)
      (own : s.trapOf thread = some trap)
      (traps : s'.controller.shared.traps = s.controller.shared.traps)
      (active : s'.controller.shared.active = s.controller.shared.active.exit)
      (held : ∀ other, s'.trapOf other = if thread = other then none else s.trapOf other) :
      Effect s s' (.advance thread)

section

variable {s : Interleaving} {thread : ThreadId} {stage : Stage}

theorem trapOf_set (controller : Controller) (stage? : Option Stage) (other : ThreadId) :
    trapOf { controller, stages := s.stages.set thread stage? } other =
      if thread = other then stage?.bind Stage.trap? else s.trapOf other := by
  simp only [trapOf, Table.get?_set]
  split <;> rfl

-- A stage after which the thread is counted for what it was counted for before.
theorem trapOf_set_same {controller : Controller} {stage? : Option Stage}
    (h : stage?.bind Stage.trap? = s.trapOf thread) (other : ThreadId) :
    trapOf { controller, stages := s.stages.set thread stage? } other = s.trapOf other := by
  rw [trapOf_set]
  split
  · rename_i he
    rw [h, he]
  · rfl

theorem trapOf_eq (hstage : s.stages.get? thread = some stage) :
    s.trapOf thread = stage.trap? := by
  rw [trapOf, hstage, Option.bind_some]

theorem turn_effect {stage? : Option Stage} {c : Controller}
    (hstage : s.stages.get? thread = some stage) (hturn : s.controller.Turn stage stage? c) :
    Effect s { controller := c, stages := s.stages.set thread stage? } (.advance thread) := by
  have htrap := trapOf_eq hstage
  cases hturn with
  | quiet traps active filed counted =>
      exact .quiet traps active (trapOf_set_same (counted.trans htrap.symm))
  | claimed access trap next trapped id isWrite wrote traps active filed counted =>
      refine .claimed thread access trap hstage trapped isWrite wrote ?_ active ?_
      · rw [traps]
        exact { s.controller.shared.traps with lastId := trap.id }.all_register_perm trap
      · intro other
        rw [trapOf_set, Option.bind_some, counted]
  | removed wait traps active =>
      exact .removed thread wait.trap traps active (trapOf_set_same htrap.symm)
  | freed wait traps active =>
      exact .freed thread wait.trap htrap traps active (trapOf_set _ _)

end

theorem step_effect {s s' : Interleaving} {action : Action} {output : Output}
    (h : s.step action = some (output, s')) : Effect s s' action := by
  cases stepped h with
  | arrive call free =>
      have halike := s.controller.alike_approach call
      refine .quiet halike.traps halike.active (trapOf_set_same ?_)
      rw [trapOf, free]
      cases (s.controller.approach call).2.1 <;> rfl
  | advance thread stage current =>
      exact turn_effect current (s.controller.advance_turn stage)
  | forget address =>
      have halike := s.controller.alike_forget address
      exact .quiet halike.traps halike.active fun _ => rfl

-- One slot for all groups and objects, and only writes wait.
structure Exclusive (s : Interleaving) : Prop where
  booked : s.Booked
  algorithm : s.controller.algorithm = .randomized
  single : s.controller.shared.active.current ≤ 1
  peak : s.controller.shared.active.peak ≤ 1
  writes : ∀ trap ∈ s.controller.shared.traps.all,
    trap.isWrite = true ∧ trap.point.isWrite = true

theorem Exclusive.step {s s' : Interleaving} {action : Action} {output : Output}
    (h : s.Exclusive) (hstep : s.step action = some (output, s')) : s'.Exclusive := by
  have hbooked := h.booked.step hstep
  have halgorithm := (congrArg Prod.fst (step_settings hstep)).trans h.algorithm
  cases step_effect hstep with
  | quiet traps active held =>
      refine ⟨hbooked, halgorithm, ?_, ?_, ?_⟩
      · rw [active]
        exact h.single
      · rw [active]
        exact h.peak
      · rw [traps]
        exact h.writes
  | claimed thread access trap stage trapped isWrite wrote traps active held =>
      -- the slot was free, and the access a write
      obtain ⟨hfree, hwrite⟩ := s.controller.check_trapped h.algorithm _ trapped
      have hfits := (h.booked.fits _ _ stage).2
      have hpeak := h.peak
      refine ⟨hbooked, halgorithm, ?_, ?_, ?_⟩
      · simp only [active, ActiveTraps.enter, hfree]
        omega
      · simp only [active, ActiveTraps.enter, hfree]
        omega
      · intro other hm
        rcases List.mem_cons.mp (traps.mem_iff.mp hm) with rfl | hm
        · exact ⟨by rw [isWrite, ← hfits, hwrite], by rw [wrote, hwrite]⟩
        · exact h.writes other hm
  | removed thread trap traps active held =>
      refine ⟨hbooked, halgorithm, ?_, ?_, ?_⟩
      · rw [active]
        exact h.single
      · rw [active]
        exact h.peak
      · intro other hm
        rw [traps] at hm
        exact h.writes other
          ((s.controller.shared.traps.all_remove_perm _).mem_iff.mp (List.mem_append_left _ hm))
  | freed thread trap own traps active held =>
      have hsingle := h.single
      refine ⟨hbooked, halgorithm, ?_, ?_, ?_⟩
      · simp only [active, ActiveTraps.exit]
        omega
      · rw [active]
        exact h.peak
      · rw [traps]
        exact h.writes

theorem Exclusive.exec {s s' : Interleaving} {actions : List Action} {outputs : List Output}
    (h : s.Exclusive) (hexec : s.exec actions = some (outputs, s')) : s'.Exclusive := by
  refine exec_induction (P := fun _ s => s.Exclusive) ?_ hexec h
  intro _ s action output s' hexclusive hstep
  exact hexclusive.step hstep

-- What becomes of the slot, and by whose action.
inductive SlotMove
  | claimed (thread? : Option ThreadId)
  | freed (thread? : Option ThreadId)

-- The thread that takes an action.
def Action.thread? : Action → Option ThreadId
  | .arrive call => some call.thread
  | .advance thread => some thread
  | .forget _ => none

-- The move that an action makes, told by the count before and after it.
def slotMove? (before after : ActiveTraps) (action : Action) : Option SlotMove :=
  if before.current < after.current then some (.claimed action.thread?)
  else if after.current < before.current then some (.freed action.thread?)
  else none

-- The moves of a sequence of actions.
def slotMoves (s : Interleaving) : List Action → List SlotMove
  | [] => []
  | action :: rest =>
      match s.step action with
      | none => []
      | some (_, next) =>
          (slotMove? s.controller.shared.active next.controller.shared.active action).toList ++
            next.slotMoves rest

-- The holder of the slot after a move: a thread claims it when it is free, and nobody but its
-- holder frees it. There are no other moves.
def SlotMove.follow : Option ThreadId → SlotMove → Option (Option ThreadId)
  | none, .claimed (some thread) => some (some thread)
  | some holder, .freed (some thread) => if thread = holder then some none else none
  | _, _ => none

-- The slot is free, or one thread is counted.
def Holds (s : Interleaving) : Option ThreadId → Prop
  | none => s.controller.shared.active.current = 0
  | some thread => s.controller.shared.active.current = 1 ∧ (s.trapOf thread).isSome

section

variable {s s' : Interleaving} {action : Action} {output : Output}

theorem slotMove?_of_eq {before after : ActiveTraps} (h : after = before) (action : Action) :
    slotMove? before after action = none := by
  simp [slotMove?, h]

theorem Holds.keep {holder? : Option ThreadId} (hh : s.Holds holder?)
    (active : s'.controller.shared.active = s.controller.shared.active)
    (held : ∀ thread, s'.trapOf thread = s.trapOf thread) : s'.Holds holder? := by
  have hcurrent := congrArg ActiveTraps.current active
  cases holder? with
  | none => exact hcurrent.trans hh
  | some holder =>
      refine ⟨hcurrent.trans hh.1, ?_⟩
      rw [held]
      exact hh.2

theorem Booked.no_trap (h : s.Booked) (hfree : s.controller.shared.active.current = 0)
    (thread : ThreadId) : s.trapOf thread = none := by
  cases htrap : s.trapOf thread with
  | none => rfl
  | some trap =>
      obtain ⟨stage, hstage, ht⟩ := Option.bind_eq_some_iff.mp htrap
      have hpos := h.current_pos hstage ht
      omega

-- Two threads that are counted are two.
theorem Booked.holder_unique (h : s.Booked) (hsingle : s.controller.shared.active.current ≤ 1)
    {thread other : ThreadId} (ht : (s.trapOf thread).isSome) (ho : (s.trapOf other).isSome) :
    thread = other := by
  by_contra hne
  obtain ⟨trap, htrap⟩ := Option.isSome_iff_exists.mp ht
  obtain ⟨trap', htrap'⟩ := Option.isSome_iff_exists.mp ho
  obtain ⟨stage, hstage, hcounted⟩ := Option.bind_eq_some_iff.mp htrap
  obtain ⟨stage', hstage', hcounted'⟩ := Option.bind_eq_some_iff.mp htrap'
  have hrest : trap' ∈ (s.stages.erase thread).values.filterMap Stage.trap? := by
    refine List.mem_filterMap.mpr ⟨stage', (Table.mem_values_iff _ _).mpr ⟨other, ?_⟩, hcounted'⟩
    rw [Table.get?_erase, if_neg hne, hstage']
  have hpos := List.length_pos_of_mem hrest
  have hall := ((s.stages.values_erase_perm thread).filterMap Stage.trap?).length_eq
  rw [List.filterMap_append, List.length_append, ← h.counted, hstage] at hall
  simp [hcounted] at hall
  omega

-- An action keeps the holder, or it is a move that the discipline of the slot allows.
theorem Exclusive.holds_step (h : s.Exclusive) {holder? : Option ThreadId}
    (hh : s.Holds holder?) (hstep : s.step action = some (output, s')) :
    ∃ next?, s'.Holds next? ∧
      (slotMove? s.controller.shared.active s'.controller.shared.active action).toList.foldlM
        SlotMove.follow holder? = some next? := by
  cases step_effect hstep with
  | quiet traps active held =>
      refine ⟨holder?, hh.keep active held, ?_⟩
      rw [slotMove?_of_eq active]
      rfl
  | removed thread trap traps active held =>
      refine ⟨holder?, hh.keep active held, ?_⟩
      rw [slotMove?_of_eq active]
      rfl
  | claimed thread access trap stage trapped isWrite wrote traps active held =>
      obtain ⟨hfree, -⟩ := s.controller.check_trapped h.algorithm _ trapped
      refine ⟨some thread, ⟨?_, ?_⟩, ?_⟩
      · rw [active, ActiveTraps.enter, hfree]
      · rw [held, if_pos rfl]
        rfl
      · -- a holder would be counted, but the slot was free
        cases holder? with
        | none =>
            rw [slotMove?, if_pos (by simp [active, ActiveTraps.enter])]
            rfl
        | some holder =>
            obtain ⟨hbusy, -⟩ := hh
            omega
  | freed thread trap own traps active held =>
      have hsome : (s.trapOf thread).isSome := by
        rw [own]
        rfl
      cases holder? with
      | none =>
          rw [h.booked.no_trap hh thread] at own
          cases own
      | some holder =>
          -- the thread that frees the slot is counted, and so is the holder
          obtain rfl := h.booked.holder_unique h.single hsome hh.2
          have hcurrent := hh.1
          refine ⟨none, ?_, ?_⟩
          · simp [Holds, active, ActiveTraps.exit, hcurrent]
          · rw [slotMove?, if_neg, if_pos]
            · simp [SlotMove.follow, Action.thread?]
            · simp [active, ActiveTraps.exit, hcurrent]
            · simp [active, ActiveTraps.exit, hcurrent]

-- The moves of a run follow one another as the discipline of the slot wants.
theorem Exclusive.slotMoves_follow (h : s.Exclusive) {holder? : Option ThreadId}
    (hh : s.Holds holder?) {actions : List Action} {outputs : List Output}
    (hexec : s.exec actions = some (outputs, s')) :
    ∃ last?, s'.Holds last? ∧
      (s.slotMoves actions).foldlM SlotMove.follow holder? = some last? := by
  induction actions generalizing s holder? outputs with
  | nil =>
      obtain ⟨-, rfl⟩ := Prod.mk.inj (Option.some.inj hexec)
      exact ⟨holder?, hh, rfl⟩
  | cons action rest ih =>
      rw [Interleaving.exec] at hexec
      cases hstep : s.step action with
      | none =>
          rw [hstep] at hexec
          cases hexec
      | some stepped =>
          obtain ⟨output, next⟩ := stepped
          rw [hstep] at hexec
          obtain ⟨⟨later, _⟩, hrest, he⟩ := Option.map_eq_some_iff.mp hexec
          obtain ⟨-, rfl⟩ := Prod.mk.inj he
          obtain ⟨next?, hnext, hmove⟩ := h.holds_step hh hstep
          obtain ⟨last?, hlast, hmoves⟩ := ih (h.step hstep) hnext hrest
          refine ⟨last?, hlast, ?_⟩
          simp only [slotMoves, hstep, List.foldlM_append, hmove]
          exact hmoves

end

-- However the sections of the calls of the randomized controller are interleaved, at most one
-- trap is in place, only writes wait, and the slot is freed by the thread that claimed it.
theorem randomized_single_slot (config : RuntimeConfig) (classifier : Classifier)
    (entropy : RandomSource) (blacklist : List LocationPair) (actions : List Action)
    (outputs : List Output) (s : Interleaving)
    (h : exec { controller := Detector.newRandomized config classifier entropy blacklist } actions =
      some (outputs, s)) :
    let shared := s.controller.shared
    shared.traps.outstanding ≤ shared.active.current ∧ shared.active.current ≤ 1 ∧
      shared.active.peak ≤ 1 ∧
      (∀ trap ∈ shared.traps.all, trap.isWrite = true ∧ trap.point.isWrite = true) ∧
      ∃ holder?, s.Holds holder? ∧
        (slotMoves { controller := Detector.newRandomized config classifier entropy blacklist }
          actions).foldlM SlotMove.follow none = some holder? := by
  have hfresh := Controller.Fresh.randomized config classifier entropy blacklist
  have hstart : Exclusive
      { controller := Detector.newRandomized config classifier entropy blacklist } := by
    refine ⟨hfresh.booked, rfl, Nat.zero_le _, Nat.zero_le _, ?_⟩
    intro trap hm
    cases hm
  have hlast := hstart.exec h
  exact ⟨hlast.booked.outstanding_le_current, hlast.single, hlast.peak, hlast.writes,
    hstart.slotMoves_follow (show Holds _ none from rfl) h⟩

-- Two threads that check one after the other, of which the first one takes the slot.
theorem randomized_single_slot_taken :
    ∃ outputs s, exec
        { controller :=
            Detector.newRandomized Sample.randomized Sample.classifier Sample.entropy [] }
        [.arrive (Sample.call 1), .arrive (Sample.call 2), .advance 1, .advance 2] =
          some (outputs, s) ∧
      s.controller.shared.traps.outstanding = 1 ∧ s.controller.shared.active.current ≤ 1 := by
  have hrun : (exec
      { controller := Detector.newRandomized Sample.randomized Sample.classifier Sample.entropy [] }
      [.arrive (Sample.call 1), .arrive (Sample.call 2), .advance 1, .advance 2]).any
        (·.2.controller.shared.traps.outstanding == 1) = true := by
    decide +kernel
  obtain ⟨⟨outputs, s⟩, hexec, hone⟩ := (Option.any_eq_true _ _).mp hrun
  exact ⟨outputs, s, hexec, beq_iff_eq.mp hone,
    (randomized_single_slot Sample.randomized Sample.classifier Sample.entropy [] _ outputs s
      hexec).2.1⟩

end Interleaving

end DelayInjection
