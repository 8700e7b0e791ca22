import DelayInjection.Proofs.Control.Access
import DelayInjection.Proofs.Trap.Filing

-- The books of an interleaving: which thread has which trap in place, and which traps are counted
-- as active. Every section keeps them right.

namespace DelayInjection

namespace Stage

-- The trap that a thread has set and is counted for.
def trap? : Stage → Option Trap
  | .checking _ => none
  | .handling _ _ _ trap? => trap?
  | .settling _ _ _ _ _ trap? => trap?
  | .asleep wait => some wait.trap
  | .awake wait => some wait.trap
  | .removed wait => some wait.trap

-- The trap that is in place for a thread.
def filed? : Stage → Option Trap
  | .removed _ => none
  | stage => stage.trap?

theorem trap?_of_filed? {stage : Stage} {trap : Trap} (h : stage.filed? = some trap) :
    stage.trap? = some trap := by
  cases stage with
  | removed _ => cases h
  | checking _ | handling _ _ _ _ | settling _ _ _ _ _ _ | asleep _ | awake _ => exact h

-- What a thread is at is its own doing.
def Fits (thread : ThreadId) : Stage → Prop
  | .checking access =>
      access.point.thread = thread ∧ access.point.isWrite = access.classification.isWrite
  | .handling _ _ _ trap? => ∀ trap ∈ trap?, trap.point.thread = thread
  | .settling _ _ _ _ _ trap? => ∀ trap ∈ trap?, trap.point.thread = thread
  | .asleep wait => wait.trap.point.thread = thread
  | .awake wait => wait.trap.point.thread = thread
  | .removed wait => wait.trap.point.thread = thread

end Stage

namespace Controller

-- What a section does to the traps, to their count, and to its own thread: nothing, or it files
-- a trap and counts it, or it takes out a trap, or it counts one trap fewer.
inductive Turn (c : Controller) : Stage → Option Stage → Controller → Prop
  | quiet {stage : Stage} {stage? : Option Stage} {c' : Controller}
      (traps : c'.shared.traps = c.shared.traps) (active : c'.shared.active = c.shared.active)
      (filed : stage?.bind Stage.filed? = stage.filed?)
      (counted : stage?.bind Stage.trap? = stage.trap?) : Turn c stage stage? c'
  | claimed {c' : Controller} (access : Access) (trap : Trap) (stage : Stage)
      (trapped : (c.check access).2.1 = some trap)
      (id : trap.id = c.shared.traps.lastId + 1)
      (isWrite : trap.isWrite = access.classification.isWrite)
      (wrote : trap.point.isWrite = access.point.isWrite)
      (traps : c'.shared.traps = { c.shared.traps with lastId := trap.id }.register trap)
      (active : c'.shared.active = c.shared.active.enter)
      (filed : stage.filed? = some trap) (counted : stage.trap? = some trap) :
      Turn c (.checking access) (some stage) c'
  | removed {c' : Controller} (wait : Waiting)
      (traps : c'.shared.traps = c.shared.traps.remove wait.trap)
      (active : c'.shared.active = c.shared.active) :
      Turn c (.awake wait) (some (.removed wait)) c'
  | freed {c' : Controller} (wait : Waiting) (traps : c'.shared.traps = c.shared.traps)
      (active : c'.shared.active = c.shared.active.exit) : Turn c (.removed wait) none c'

theorem check_turn (c : Controller) (access : Access) (conflicts : List Trap) :
    c.Turn (.checking access)
      (some (.handling access.point conflicts none (c.check access).2.1)) (c.check access).2.2 := by
  have hbooking := c.check_booking access
  cases hcheck : c.check access with
  | mk races rest =>
      obtain ⟨trap?, after⟩ := rest
      rw [hcheck] at hbooking
      dsimp only at hbooking ⊢
      generalize hshared : after.shared = shared at hbooking
      cases hbooking with
      | passed => exact .quiet (by rw [hshared]) (by rw [hshared]) rfl rfl
      | trapped delayMs =>
          refine .claimed access _ _ (by rw [hcheck]) rfl rfl rfl ?_ ?_ rfl rfl
          · rw [hshared]
            rfl
          · rw [hshared]

theorem advance_turn (c : Controller) (stage : Stage) :
    c.Turn stage (c.advance stage).2.1 (c.advance stage).2.2 := by
  cases stage with
  | checking access => exact c.check_turn access _
  | handling racing conflicts race? trap? =>
      cases conflicts with
      | cons conflict rest =>
          have hfaced := c.shared.faced racing conflict rest race? trap?
          simp only [advance]
          generalize c.shared.face racing conflict rest race? trap? = faced at hfaced ⊢
          cases hfaced <;> exact .quiet (by simp) (by simp) rfl rfl
      | nil => cases trap? <;> exact .quiet rfl rfl rfl rfl
  | settling phase racing conflict rest race? trap? =>
      cases phase <;> exact .quiet rfl rfl rfl rfl
  | asleep wait =>
      refine .quiet ?_ ?_ rfl rfl
      · rw [advance, shared_afterWait]
      · rw [advance, shared_afterWait]
  | awake wait =>
      refine .removed wait ?_ ?_
      · rw [advance, shared_withShared]
        rfl
      · rw [advance, shared_withShared]
        rfl
  | removed wait =>
      refine .freed wait ?_ ?_
      · rw [advance, shared_withShared]
        rfl
      · rw [advance, shared_withShared]
        rfl

theorem fits_advance (c : Controller) {thread : ThreadId} {stage : Stage}
    (h : stage.Fits thread) : ∀ next ∈ (c.advance stage).2.1, next.Fits thread := by
  intro next hm
  cases stage with
  | checking access =>
      obtain rfl := Option.some.inj hm
      intro trap htrap
      have hbooking := c.check_booking access
      rw [show (c.check access).2.1 = some trap from htrap] at hbooking
      generalize (c.check access).2.2.shared = after at hbooking
      cases hbooking with
      | trapped delayMs => exact h.1
  | handling racing conflicts race? trap? =>
      cases conflicts with
      | cons conflict rest =>
          have hfaced := c.shared.faced racing conflict rest race? trap?
          simp only [advance, Option.mem_def, Option.some.injEq] at hm
          generalize c.shared.face racing conflict rest race? trap? = faced at hfaced hm
          cases hfaced <;> exact hm ▸ h
      | nil =>
          cases trap? with
          | none => cases hm
          | some trap =>
              obtain rfl := Option.some.inj hm
              exact h trap rfl
  | settling phase racing conflict rest race? trap? =>
      cases phase <;> (obtain rfl := Option.some.inj hm; exact h)
  | asleep wait | awake wait =>
      obtain rfl := Option.some.inj hm
      exact h
  | removed wait => cases hm

end Controller

namespace Interleaving

-- The books are right: the traps in place are those of the threads that have one, the count is
-- that of the threads with a trap, and every thread is at its own call.
structure Booked (s : Interleaving) : Prop where
  sound : s.controller.shared.traps.Sound
  filed : s.controller.shared.traps.all.Perm (s.stages.values.filterMap Stage.filed?)
  counted : s.controller.shared.active.current = (s.stages.values.filterMap Stage.trap?).length
  fits : ∀ thread stage, s.stages.get? thread = some stage → stage.Fits thread

section

variable {s : Interleaving} {thread : ThreadId}

theorem Booked.filed_mem (h : s.Booked) {stage : Stage} {trap : Trap}
    (hstage : s.stages.get? thread = some stage) (ht : stage.filed? = some trap) :
    trap ∈ s.controller.shared.traps.all :=
  h.filed.mem_iff.mpr
    (List.mem_filterMap.mpr ⟨stage, Table.mem_values_of_get? hstage, ht⟩)

theorem Booked.current_pos (h : s.Booked) {stage : Stage} {trap : Trap}
    (hstage : s.stages.get? thread = some stage) (ht : stage.trap? = some trap) :
    0 < s.controller.shared.active.current := by
  have hm : trap ∈ s.stages.values.filterMap Stage.trap? :=
    List.mem_filterMap.mpr ⟨stage, Table.mem_values_of_get? hstage, ht⟩
  rw [h.counted]
  exact List.length_pos_of_mem hm

-- Every trap in place is counted.
theorem Booked.outstanding_le_current (h : s.Booked) :
    s.controller.shared.traps.outstanding ≤ s.controller.shared.active.current := by
  rw [TrapStore.outstanding_eq_length_all, h.filed.length_eq, h.counted,
    List.length_filterMap_eq_countP, List.length_filterMap_eq_countP]
  apply List.countP_mono_left
  intro stage _ hfiled
  obtain ⟨trap, htrap⟩ := Option.isSome_iff_exists.mp hfiled
  rw [Stage.trap?_of_filed? htrap]
  rfl

-- What one thread does keeps the books right if it accounts for its own trap.
theorem Booked.update (h : s.Booked) {controller : Controller} {stage? : Option Stage}
    (hsound : controller.shared.traps.Sound)
    (hfiled : (controller.shared.traps.all ++
      ((s.stages.get? thread).bind Stage.filed?).toList).Perm
        ((stage?.bind Stage.filed?).toList ++ s.controller.shared.traps.all))
    (hcounted : controller.shared.active.current +
      ((s.stages.get? thread).bind Stage.trap?).toList.length =
        (stage?.bind Stage.trap?).toList.length + s.controller.shared.active.current)
    (hfits : ∀ stage ∈ stage?, stage.Fits thread) :
    Booked { controller, stages := s.stages.set thread stage? } := by
  have hbind : ∀ (f : Stage → Option Trap) (stage? : Option Stage),
      stage?.toList.filterMap f = (stage?.bind f).toList := by
    intro f stage?
    cases stage? with
    | none => rfl
    | some stage => cases hf : f stage <;> simp [hf]
  have hstages := s.stages.values_set_perm thread stage?
  refine ⟨hsound, ?_, ?_, ?_⟩
  · have hp := hstages.filterMap Stage.filed?
    simp only [List.filterMap_append, hbind] at hp
    have hall := hfiled.trans (h.filed.append_left _)
    exact (List.perm_append_right_iff _).mp (hall.trans hp.symm)
  · have hl := (hstages.filterMap Stage.trap?).length_eq
    simp only [List.filterMap_append, hbind, List.length_append] at hl
    have hc := h.counted
    change controller.shared.active.current =
      ((s.stages.set thread stage?).values.filterMap Stage.trap?).length
    omega
  · intro other stage hget
    simp only [Table.get?_set] at hget
    split at hget
    · rename_i he
      exact he ▸ hfits stage hget
    · exact h.fits other stage hget

-- A section that leaves traps and count alone.
theorem Booked.update_alike (h : s.Booked) {controller : Controller} {stage? : Option Stage}
    (htraps : controller.shared.traps = s.controller.shared.traps)
    (hactive : controller.shared.active = s.controller.shared.active)
    (hfiled : stage?.bind Stage.filed? = (s.stages.get? thread).bind Stage.filed?)
    (hcounted : stage?.bind Stage.trap? = (s.stages.get? thread).bind Stage.trap?)
    (hfits : ∀ stage ∈ stage?, stage.Fits thread) :
    Booked { controller, stages := s.stages.set thread stage? } := by
  refine h.update (htraps ▸ h.sound) ?_ ?_ hfits
  · rw [htraps, hfiled]
    exact List.perm_append_comm
  · rw [hactive, hcounted, Nat.add_comm]

-- A section that a thread takes keeps the books right.
theorem Booked.turn (h : s.Booked) {stage : Stage} {stage? : Option Stage} {c : Controller}
    (hstage : s.stages.get? thread = some stage) (hturn : s.controller.Turn stage stage? c)
    (hfits : ∀ stage ∈ stage?, stage.Fits thread) :
    Booked { controller := c, stages := s.stages.set thread stage? } := by
  have hfiled : (s.stages.get? thread).bind Stage.filed? = stage.filed? := by
    rw [hstage, Option.bind_some]
  have hcounted : (s.stages.get? thread).bind Stage.trap? = stage.trap? := by
    rw [hstage, Option.bind_some]
  cases hturn with
  | quiet traps active filed counted =>
      exact h.update_alike traps active (filed.trans hfiled.symm) (counted.trans hcounted.symm)
        hfits
  | claimed access trap next trapped id isWrite wrote traps active filed counted =>
      -- the trap enters both books at once
      have hall : ({ s.controller.shared.traps with lastId := trap.id }.register trap).all.Perm
          (trap :: s.controller.shared.traps.all) :=
        { s.controller.shared.traps with lastId := trap.id }.all_register_perm trap
      refine h.update ?_ ?_ ?_ hfits
      · rw [traps]
        exact h.sound.register id
      · rw [traps, hfiled, Option.bind_some, filed]
        simpa [Stage.filed?, Stage.trap?] using hall
      · rw [active, hcounted, Option.bind_some, counted]
        simp only [Stage.trap?, Option.toList_none, Option.toList_some, List.length_nil,
          List.length_singleton, ActiveTraps.enter]
        omega
  | removed wait traps active =>
      -- the trap leaves its bucket, but its thread stays counted until the next section
      have hin := h.filed_mem hstage rfl
      refine h.update ?_ ?_ ?_ hfits
      · rw [traps]
        exact h.sound.remove wait.trap
      · rw [traps, hfiled]
        exact List.perm_append_comm.trans (h.sound.remove_perm hin)
      · rw [active, hcounted, Option.bind_some]
        exact Nat.add_comm _ _
  | freed wait traps active =>
      -- the thread is counted, so that the count does not saturate
      have hpos := h.current_pos hstage rfl
      refine h.update ?_ ?_ ?_ hfits
      · rw [traps]
        exact h.sound
      · rw [traps, hfiled]
        simp [Stage.filed?]
      · rw [active, hcounted]
        simp only [Stage.trap?, Option.bind_none, Option.toList_none, Option.toList_some,
          List.length_nil, List.length_singleton, ActiveTraps.exit]
        omega

theorem Booked.arrive (h : s.Booked) {call : Call}
    (hfree : s.stages.get? call.thread = none) :
    Booked
      { controller := (s.controller.approach call).2.2
        stages := s.stages.set call.thread
          ((s.controller.approach call).2.1.map .checking) } := by
  have halike := s.controller.alike_approach call
  have hof : ∀ access, (s.controller.approach call).2.1 = some access →
      access.Of s.controller call := fun _ => s.controller.approach_of call
  generalize (s.controller.approach call).2.1 = access? at hof ⊢
  refine h.update_alike halike.traps halike.active ?_ ?_ ?_
  · rw [hfree]
    cases access? <;> rfl
  · rw [hfree]
    cases access? <;> rfl
  · intro stage hm
    obtain ⟨access, haccess, rfl⟩ := Option.map_eq_some_iff.mp hm
    exact ⟨(hof access haccess).thread, (hof access haccess).isWrite⟩

end

theorem Booked.step {s s' : Interleaving} {action : Action} {output : Output} (h : s.Booked)
    (hstep : s.step action = some (output, s')) : s'.Booked := by
  cases stepped hstep with
  | arrive call free => exact h.arrive free
  | advance thread stage current =>
      exact h.turn current (s.controller.advance_turn stage)
        (s.controller.fits_advance (h.fits thread stage current))
  | forget address =>
      have halike := s.controller.alike_forget address
      refine ⟨?_, ?_, ?_, h.fits⟩
      · change (s.controller.forget address).2.2.shared.traps.Sound
        rw [halike.traps]
        exact h.sound
      · change (s.controller.forget address).2.2.shared.traps.all.Perm _
        rw [halike.traps]
        exact h.filed
      · change (s.controller.forget address).2.2.shared.active.current = _
        rw [halike.active]
        exact h.counted

theorem Booked.exec {s s' : Interleaving} {actions : List Action} {outputs : List Output}
    (h : s.Booked) (hexec : s.exec actions = some (outputs, s')) : s'.Booked := by
  refine exec_induction (P := fun _ s => s.Booked) ?_ hexec h
  intro _ s action output s' hbooked hstep
  exact hbooked.step hstep

end Interleaving

end DelayInjection
