import DelayInjection.Proofs.Control.Runs

-- What a controller is set to, which no call ever changes.

namespace DelayInjection

namespace Controller

-- Which controller it is, whether it raises races, and the races confirmed in earlier runs.
def settings (c : Controller) : Algorithm × Bool × List LocationPair :=
  (c.algorithm, c.shared.raiseOnRace, c.shared.ledger.blacklist)

theorem settings_withShared (c : Controller) (change : Shared → Shared)
    (hraise : (change c.shared).raiseOnRace = c.shared.raiseOnRace)
    (hblacklist : (change c.shared).ledger.blacklist = c.shared.ledger.blacklist) :
    (c.withShared change).settings = c.settings := by
  have halgorithm : (c.withShared change).algorithm = c.algorithm := by cases c <;> rfl
  rw [settings, settings, shared_withShared, halgorithm, hraise, hblacklist]

theorem settings_approach (c : Controller) (call : Call) :
    (c.approach call).2.2.settings = c.settings := by
  have halike := c.alike_approach call
  have halgorithm : (c.approach call).2.2.algorithm = c.algorithm := by cases c <;> rfl
  rw [settings, settings, halgorithm, halike.raise, halike.ledger]

theorem settings_check (c : Controller) (access : Access) :
    (c.check access).2.2.settings = c.settings := by
  have hbooking := c.check_booking access
  have halgorithm : (c.check access).2.2.algorithm = c.algorithm := by cases c <;> rfl
  rw [settings, settings, halgorithm, hbooking.raise_eq, hbooking.ledger_eq]

theorem settings_afterWait (c : Controller) (wait : Waiting) :
    (c.afterWait wait).settings = c.settings := by
  cases c <;> rfl

theorem settings_forget (c : Controller) (address : Address) :
    (c.forget address).2.2.settings = c.settings := by
  have halike := c.alike_forget address
  have halgorithm : (c.forget address).2.2.algorithm = c.algorithm := by cases c <;> rfl
  rw [settings, settings, halgorithm, halike.raise, halike.ledger]

theorem settings_advance (c : Controller) (stage : Stage) :
    (c.advance stage).2.2.settings = c.settings := by
  cases stage with
  | checking access => exact c.settings_check access
  | handling racing conflicts race? trap? =>
      cases conflicts with
      | cons conflict rest =>
          have hblacklist :=
            c.shared.ledger.record_blacklist (Shared.pairOf conflict racing)
          refine c.settings_withShared
            (fun _ => (c.shared.face racing conflict rest race? trap?).2.2) ?_ ?_
          · rw [Shared.face_shared]
          · rw [Shared.face_shared]
            exact hblacklist
      | nil => cases trap? <;> rfl
  | settling phase racing conflict rest race? trap? => rfl
  | asleep wait => exact c.settings_afterWait wait
  | awake wait => exact c.settings_withShared (·.removeTrap wait.trap) rfl rfl
  | removed wait => exact c.settings_withShared Shared.leave rfl rfl

end Controller

namespace Interleaving

theorem step_settings {s s' : Interleaving} {action : Action} {output : Output}
    (h : s.step action = some (output, s')) : s'.controller.settings = s.controller.settings := by
  cases stepped h with
  | arrive call _ => exact s.controller.settings_approach call
  | advance thread stage _ => exact s.controller.settings_advance stage
  | forget address => exact s.controller.settings_forget address

theorem exec_settings {s s' : Interleaving} {actions : List Action} {outputs : List Output}
    (h : s.exec actions = some (outputs, s')) :
    s'.controller.settings = s.controller.settings := by
  refine exec_induction (P := fun _ last => last.controller.settings = s.controller.settings)
    ?_ h rfl
  intro _ middle action output last hsame hstep
  exact (step_settings hstep).trans hsame

end Interleaving

theorem Run.exec_settings {start run : Run} {steps : List Run.Step}
    (h : start.exec steps = some run) :
    run.controller.settings = start.controller.settings := by
  obtain ⟨actions, outputs, hexec⟩ := Run.exec_sections h
  exact Interleaving.exec_settings hexec

end DelayInjection
