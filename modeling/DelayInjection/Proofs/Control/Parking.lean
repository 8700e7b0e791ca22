import Mathlib.Data.List.Nodup
import Mathlib.Order.Bounds.Defs
import DelayInjection.Proofs.Control.Runs
import DelayInjection.Proofs.Detector

-- Parked threads and their traps: between two steps of a run they belong to each other one to
-- one, and the counters say how many there are and were.

namespace DelayInjection

namespace Controller

-- A call is counted at most once, and it is only its check that counts it.
theorem onCall_active (c : Controller) (call : Call) :
    (c.onCall call).2.shared.active = c.shared.active ∨
      (c.onCall call).2.shared.active = c.shared.active.enter := by
  have happroach := (c.alike_approach call).active
  rw [onCall_eq]
  generalize c.approach call = approached at happroach ⊢
  obtain ⟨events, _ | access, reached⟩ := approached
  · exact .inl happroach
  · have hbooking := reached.check_booking access
    dsimp only at happroach ⊢
    rw [← happroach]
    generalize reached.check access = checked at hbooking ⊢
    obtain ⟨races, trap?, after⟩ := checked
    obtain ⟨seen, hhandled⟩ := after.shared.handleConflicts_shared races access.point
    dsimp only at hbooking ⊢
    simp only [settle, shared_withShared, hhandled]
    generalize after.shared = shared at hbooking ⊢
    cases hbooking with
    | passed => exact .inl rfl
    | trapped delayMs => exact .inr rfl

theorem resume_active (c : Controller) (wait : Waiting) :
    (c.resume wait).2.shared.active = c.shared.active.exit := by
  rw [resume_eq]
  simp [Shared.leave, Shared.removeTrap]

end Controller

namespace Run

-- The peak follows the count, one step at a time.
theorem step_peak {run next : Run} {step : Step} (h : run.step step = some next)
    (hle : run.controller.shared.active.current ≤ run.controller.shared.active.peak) :
    next.controller.shared.active.peak =
      max run.controller.shared.active.peak next.controller.shared.active.current := by
  cases step with
  | call call =>
      obtain ⟨⟨arrival, _⟩, hcall, rfl⟩ := Option.map_eq_some_iff.mp h
      obtain ⟨-, -, rfl⟩ := call_eq_some_iff.mp hcall
      rcases run.controller.onCall_active call with hactive | hactive
      · simp only [hactive]
        omega
      · simp only [hactive, ActiveTraps.enter]
  | wake thread =>
      obtain ⟨⟨result, _⟩, hwake, rfl⟩ := Option.map_eq_some_iff.mp h
      obtain ⟨parked, -, -, rfl⟩ := wake_eq_some_iff.mp hwake
      simp only [Controller.resume_active, ActiveTraps.exit]
      omega
  | forget address =>
      obtain rfl := Option.some.inj h
      have halike := (run.controller.alike_forget address).active
      simp only [forget, halike]
      omega

-- The traps in place and the parked threads belong to each other: a parked thread has its trap
-- and no other, filed under its own group and object, and a trap has its thread.
structure OneToOne (run : Run) : Prop where
  own : ∀ thread parked, run.parked.get? thread = some parked →
    run.controller.shared.traps.all.filter (·.point.thread == thread) = [parked.wait.trap]
  filed : ∀ thread parked, run.parked.get? thread = some parked → ∀ group object,
    parked.wait.trap ∈ run.controller.shared.traps.on group object ↔
      parked.wait.trap.group = group ∧ parked.wait.trap.object = object
  waited : ∀ trap ∈ run.controller.shared.traps.all,
    ∃ parked, run.parked.get? trap.point.thread = some parked ∧ parked.wait.trap = trap
  ids : (run.controller.shared.traps.all.map Trap.id).Nodup

section

variable {run : Run}

theorem filterMap_stages {f : Stage → Option Trap}
    (hf : ∀ wait, f (.asleep wait) = some wait.trap) :
    run.interleaving.stages.values.filterMap f = run.parked.values.map (·.wait.trap) := by
  rw [interleaving, Table.values_mapValues, List.filterMap_map]
  simp [hf]

theorem all_perm_of_booked (h : run.interleaving.Booked) :
    run.controller.shared.traps.all.Perm (run.parked.values.map (·.wait.trap)) := by
  rw [← filterMap_stages (f := Stage.filed?) fun _ => rfl]
  exact h.filed

theorem current_eq_of_booked (h : run.interleaving.Booked) :
    run.controller.shared.active.current = run.parked.size := by
  have hc := h.counted
  rw [filterMap_stages fun _ => rfl, List.length_map] at hc
  rw [Table.size_eq_length_values]
  exact hc

theorem thread_eq_of_booked (h : run.interleaving.Booked) {thread : ThreadId} {parked : Parked}
    (hget : run.parked.get? thread = some parked) : parked.wait.trap.point.thread = thread :=
  h.fits thread _ (stage_of_parked hget)

theorem waited_of_booked (h : run.interleaving.Booked) {trap : Trap}
    (hm : trap ∈ run.controller.shared.traps.all) :
    ∃ parked, run.parked.get? trap.point.thread = some parked ∧ parked.wait.trap = trap := by
  obtain ⟨parked, hparked, rfl⟩ := List.mem_map.mp ((all_perm_of_booked h).mem_iff.mp hm)
  obtain ⟨thread, hget⟩ := (Table.mem_values_iff _ _).mp hparked
  have hthread := thread_eq_of_booked h hget
  exact ⟨parked, hthread ▸ hget, rfl⟩

theorem mem_all_of_booked (h : run.interleaving.Booked) {thread : ThreadId} {parked : Parked}
    (hget : run.parked.get? thread = some parked) :
    parked.wait.trap ∈ run.controller.shared.traps.all :=
  h.filed_mem (stage_of_parked hget) rfl

theorem oneToOne_of_booked (h : run.interleaving.Booked) : run.OneToOne where
  own thread parked hget := by
    have hall : run.controller.shared.traps.all.Nodup := .of_map Trap.id h.sound.ids
    apply List.perm_singleton.mp
    apply (List.perm_ext_iff_of_nodup (hall.filter _) (List.nodup_singleton _)).mpr
    intro trap
    rw [List.mem_filter, List.mem_singleton, beq_iff_eq]
    constructor
    · rintro ⟨hm, rfl⟩
      obtain ⟨other, hother, rfl⟩ := waited_of_booked h hm
      rw [hget] at hother
      obtain rfl := Option.some.inj hother
      rfl
    · rintro rfl
      exact ⟨mem_all_of_booked h hget, thread_eq_of_booked h hget⟩
  filed thread parked hget group object := by
    constructor
    · exact h.sound.placed group object _
    · rintro ⟨rfl, rfl⟩
      exact (h.sound.mem_all_iff _).mp (mem_all_of_booked h hget)
  waited _ hm := waited_of_booked h hm
  ids := h.sound.ids

end

section

variable {start : Controller} {steps : List Step} {run : Run}

theorem booked (hstart : start.Fresh) (h : Run.exec { controller := start } steps = some run) :
    run.interleaving.Booked := by
  obtain ⟨actions, outputs, hexec⟩ := exec_sections h
  exact hstart.booked.exec hexec

-- The peak is the largest number of threads that were parked at once at the end of some prefix.
theorem peak_isGreatest (hstart : start.Fresh)
    (h : Run.exec { controller := start } steps = some run) :
    IsGreatest
      {n | ∃ before middle, before <+: steps ∧
        Run.exec { controller := start } before = some middle ∧ n = middle.parked.size}
      run.controller.shared.active.peak := by
  induction steps using List.reverseRecOn generalizing run with
  | nil =>
      obtain rfl := Option.some.inj h
      have hpeak : start.shared.active.peak = 0 := by rw [hstart.active_eq]
      refine ⟨⟨[], { controller := start }, List.prefix_rfl, rfl, hpeak⟩, ?_⟩
      rintro n ⟨before, middle, hb, hm, rfl⟩
      obtain rfl := List.prefix_nil.mp hb
      obtain rfl := Option.some.inj hm
      exact Nat.zero_le _
  | append_singleton steps last ih =>
      have hexec := h
      rw [exec_concat] at h
      obtain ⟨middle, hmiddle, hlast⟩ := Option.bind_eq_some_iff.mp h
      obtain ⟨⟨before, peaked, hb, hp, hpeak⟩, hbound⟩ := ih hmiddle
      have hle : middle.controller.shared.active.current ≤
          middle.controller.shared.active.peak := by
        rw [current_eq_of_booked (booked hstart hmiddle)]
        exact hbound ⟨steps, middle, List.prefix_rfl, hmiddle, rfl⟩
      have hsize := current_eq_of_booked (booked hstart hexec)
      have hmax := step_peak hlast hle
      rw [hsize] at hmax
      constructor
      · -- the peak is attained where it was before, or by the last step
        rcases Nat.le_total run.parked.size middle.controller.shared.active.peak with hl | hl
        · refine ⟨before, peaked, hb.trans (List.prefix_append _ _), hp, ?_⟩
          rw [hmax, Nat.max_eq_left hl, hpeak]
        · refine ⟨steps ++ [last], run, List.prefix_rfl, hexec, ?_⟩
          rw [hmax, Nat.max_eq_right hl]
      · rintro n ⟨early, state, he, hs, rfl⟩
        rw [hmax]
        rcases List.prefix_concat_iff.mp he with rfl | he
        · rw [hexec] at hs
          obtain rfl := Option.some.inj hs
          exact Nat.le_max_right _ _
        · exact Nat.le_trans (hbound ⟨early, state, he, hs, rfl⟩) (Nat.le_max_left _ _)

-- A thread that wakes up is one of those that are counted.
theorem wake_current (hbooked : run.interleaving.Booked) {thread : ThreadId}
    {result : CallResult} {next : Run} (h : run.wake thread = some (result, next)) :
    next.controller.shared.active.current + 1 = run.controller.shared.active.current := by
  obtain ⟨parked, hget, -, rfl⟩ := wake_eq_some_iff.mp h
  have hpos := hbooked.current_pos (stage_of_parked hget) rfl
  have hcurrent : 0 < run.controller.shared.active.current := hpos
  simp only [Controller.resume_active, ActiveTraps.exit]
  omega

-- Between any two steps of any run the books agree with the parked threads.
theorem bookkeeping_exact (hstart : start.Fresh)
    (h : Run.exec { controller := start } steps = some run) :
    let traps := run.controller.shared.traps
    let active := run.controller.shared.active
    run.OneToOne ∧ traps.outstanding = active.current ∧ active.current = run.parked.size ∧
      IsGreatest
        {n | ∃ before middle, before <+: steps ∧
          Run.exec { controller := start } before = some middle ∧ n = middle.parked.size}
        active.peak ∧
      (∀ thread result next, run.wake thread = some (result, next) →
        next.controller.shared.active.current + 1 = active.current) ∧
      (run.parked.size = 0 → traps.all = [] ∧ traps.outstanding = 0 ∧ active.current = 0) := by
  have hbooked := booked hstart h
  have hsize := current_eq_of_booked hbooked
  have hall := (all_perm_of_booked hbooked).length_eq
  have houtstanding : run.controller.shared.traps.outstanding = run.parked.size := by
    rw [TrapStore.outstanding_eq_length_all, hall, List.length_map, Table.size_eq_length_values]
  refine ⟨oneToOne_of_booked hbooked, houtstanding.trans hsize.symm, hsize,
    peak_isGreatest hstart h, fun _ _ _ => wake_current hbooked, ?_⟩
  intro hnone
  refine ⟨?_, houtstanding.trans hnone, hsize.trans hnone⟩
  apply List.eq_nil_of_length_eq_zero
  rw [← TrapStore.outstanding_eq_length_all, houtstanding, hnone]

theorem bookkeeping_exact_one_parked :
    ∃ run, Run.exec
        { controller :=
            Detector.newRandomized Sample.randomized Sample.classifier Sample.entropy [] }
        [.call (Sample.call 1), .call (Sample.call 2)] = some run ∧
      run.parked.size = 1 ∧ run.OneToOne := by
  have hrun : (Run.exec
      { controller := Detector.newRandomized Sample.randomized Sample.classifier Sample.entropy [] }
      [.call (Sample.call 1), .call (Sample.call 2)]).any (·.parked.size == 1) = true := by
    decide +kernel
  obtain ⟨run, hexec, hsize⟩ := (Option.any_eq_true _ _).mp hrun
  exact ⟨run, hexec, beq_iff_eq.mp hsize,
    (bookkeeping_exact (.randomized Sample.randomized Sample.classifier Sample.entropy [])
      hexec).1⟩

end

end Run

end DelayInjection
