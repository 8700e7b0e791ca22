import DelayInjection.Proofs.Control.Learning
import DelayInjection.Proofs.Danger
import DelayInjection.Proofs.Detector

-- Which traps of the learned controller may stack. Planned points and points of live pairs are
-- trapped beside other traps; any other point only if it is alone.

namespace DelayInjection

namespace Learned

section

variable {c : Learned}

-- The point of an access knows whether a plan governs it.
theorem approach_inPlan (call : Call) {access : Access}
    (h : (c.approach call).2.1 = some access) :
    access.point.inPlan = access.plan?.isSome := by
  have happroached := c.approached call
  generalize c.approach call = approach at happroached h
  cases happroached with
  | noted unclassed => cases h
  | learned classification classed =>
      obtain rfl := Option.some.inj h
      rfl

theorem consistent_discoverPairs (h : c.danger.Consistent) (group : String) (point : Point) :
    (c.discoverPairs group point).2.danger.Consistent := by
  refine discoverPairs_induction (P := fun state => state.2.danger.Consistent) c group point
    (fun state earlier h => ?_) h
  unfold discoverPair
  dsimp only
  split
  · exact h.consider _ _
  · exact h

theorem consistent_pruneHappensBefore (h : c.danger.Consistent) (point : Point) :
    (c.pruneHappensBefore point).2.danger.Consistent := by
  have hpruned := c.pruned point
  generalize c.pruneHappensBefore point = pruning at hpruned ⊢
  cases hpruned with
  | unstalled | unpaid threads => exact h
  | paid blocker credits threads => exact h.remove _

theorem consistent_learn (h : c.danger.Consistent) (group : String) (point : Point) :
    (c.learn group point).2.danger.Consistent := by
  unfold learn
  split
  · exact consistent_pruneHappensBefore (consistent_discoverPairs h group point) point
  · exact h

theorem consistent_approach (h : c.danger.Consistent) (call : Call) :
    (c.approach call).2.2.danger.Consistent := by
  have hclass : (c.classified call).2.danger = c.danger := (c.stamp call).2.2.danger_classify call
  rw [← hclass] at h
  have happroached := c.approached call
  generalize c.approach call = approach at happroached ⊢
  cases happroached with
  | noted unclassed => exact h
  | learned classification classed =>
      have hprepared : (c.prepared call classification).danger.Consistent := h
      exact consistent_learn hprepared classification.group.name _

-- A section past the approach at most weighs a location.
theorem Weighed.consistent {after : Learned} {location : String} (h : c.Weighed location after)
    (hc : c.danger.Consistent) : after.danger.Consistent := by
  cases h with
  | passed => exact hc
  | weighed random => exact hc.weigh location

theorem consistent_decide (h : c.danger.Consistent) (point : Point)
    (classification : Classification) (plan? : Option PlanHandle) :
    (c.decide point classification plan?).2.2.danger.Consistent := by
  have hterms := (c.weighed_trapTerms point plan?).consistent h
  have hdecided := c.decided point classification plan?
  generalize c.decide point classification plan? = decision at hdecided ⊢
  cases hdecided with
  | raced => exact h
  | passed | trapped delayMs terms free plans => exact hterms

theorem consistent_advance (h : c.danger.Consistent) (stage : Stage) :
    ∃ after, ((Controller.learned c).advance stage).2.2 = .learned after ∧
      after.params = c.params ∧ after.danger.Consistent := by
  cases stage with
  | checking access =>
      have hmemory := (c.decide_learned access.point access.classification access.plan?).1
      exact ⟨_, rfl, congrArg Prod.fst hmemory,
        consistent_decide h access.point access.classification access.plan?⟩
  | handling racing conflicts race? trap? =>
      cases conflicts with
      | cons conflict rest => exact ⟨_, rfl, rfl, h⟩
      | nil => cases trap? <;> exact ⟨c, rfl, rfl, h⟩
  | settling phase racing conflict rest race? trap? => exact ⟨c, rfl, rfl, h⟩
  | asleep wait | awake wait | removed wait => exact ⟨_, rfl, rfl, h⟩

theorem consistent_forget (h : c.danger.Consistent) (address : Address) :
    (c.forget address).2.2.params = c.params ∧ (c.forget address).2.2.danger.Consistent := by
  unfold forget
  dsimp only
  split <;> exact ⟨rfl, h⟩

-- What speaks for a trap: a plan or a write, and then a plan, a live pair, or that no trap is
-- active and unknown points are to be trapped.
theorem trapTerms_eligible {point : Point} {plan? : Option PlanHandle} {delayMs : Nat}
    (h : (c.trapTerms point plan?).1 = some delayMs) :
    (plan?.isSome = true ∨ point.isWrite = true) ∧
      (point.inPlan = true ∨ (c.danger.weigh point.location).1.isSome = true ∨
        c.params.trapUnknownPoints = true ∧ c.shared.active.current = 0) := by
  unfold trapTerms at h
  split at h
  · cases h
  · rename_i hsite
    dsimp only at h
    split at h
    · cases h
    · rename_i heligible
      refine ⟨?_, ?_⟩
      · cases plan? with
        | none => exact .inr (by simpa using hsite)
        | some handle => exact .inl rfl
      · simp only [Bool.not_eq_true', Bool.not_eq_false, Bool.or_eq_true, Bool.and_eq_true,
          ActiveTraps.anyActive, decide_eq_false_iff_not] at heligible
        rcases heligible with (⟨hunknown, hidle⟩ | hdanger) | hplan
        · exact .inr (.inr ⟨hunknown, by omega⟩)
        · exact .inr (.inl hdanger)
        · exact .inl hplan

theorem terms_of_decide {point : Point} {classification : Classification}
    {plan? : Option PlanHandle} {trap : Trap}
    (h : (c.decide point classification plan?).2.1 = some trap) :
    ∃ delayMs, (c.trapTerms point plan?).1 = some delayMs := by
  have hdecided := c.decided point classification plan?
  generalize c.decide point classification plan? = decision at hdecided h
  cases hdecided with
  | raced | passed => cases h
  | trapped delayMs terms free plans => exact ⟨delayMs, terms⟩

end

end Learned

-- A check of a run: the access, and the controller that decides on it.
structure Decision where
  before : Learned
  access : Access

namespace Controller

-- Only a check files a trap.
theorem Turn.traps_away {c c' : Controller} {stage : Stage} {stage? : Option Stage}
    (h : c.Turn stage stage? c') (hother : ∀ access, stage ≠ .checking access) :
    c'.shared.traps.lastId = c.shared.traps.lastId ∧
      c'.shared.traps.all ⊆ c.shared.traps.all := by
  cases h with
  | quiet traps active filed counted =>
      rw [traps]
      exact ⟨rfl, List.Subset.refl _⟩
  | claimed access trap next trapped id isWrite wrote traps active filed counted =>
      exact absurd rfl (hother access)
  | removed wait traps active =>
      rw [traps]
      exact ⟨rfl, fun trap hm =>
        (c.shared.traps.all_remove_perm wait.trap).mem_iff.mp (List.mem_append_left _ hm)⟩
  | freed wait traps active =>
      rw [traps]
      exact ⟨rfl, List.Subset.refl _⟩

theorem advance_not_checking (c : Controller) (stage : Stage) (access : Access) :
    (c.advance stage).2.1 ≠ some (.checking access) := by
  cases stage with
  | handling racing conflicts race? trap? =>
      cases conflicts with
      | cons conflict rest =>
          have hfaced := c.shared.faced racing conflict rest race? trap?
          simp only [advance]
          generalize c.shared.face racing conflict rest race? trap? = faced at hfaced ⊢
          cases hfaced <;> simp
      | nil => cases trap? <;> simp [advance]
  | settling phase racing conflict rest race? trap? =>
      cases phase <;> simp [advance, Phase.settle, Phase.next?]
  | checking _ | asleep _ | awake _ | removed _ => simp [advance]

end Controller

namespace Decision

-- The trap that is set.
def trap? (decision : Decision) : Option Trap :=
  (decision.before.decide decision.access.point decision.access.classification
    decision.access.plan?).2.1

-- No plan matches the point, and no live pair contains its location.
def Ordinary (decision : Decision) : Prop :=
  decision.access.plan? = none ∧
    ∀ pair ∈ decision.before.danger.pairs,
      pair.contains decision.access.point.location = false
deriving Decidable

-- What is known of a check when it comes to it.
structure Ready (params : LearnedParams) (decision : Decision) : Prop where
  params_eq : decision.before.params = params
  consistent : decision.before.danger.Consistent
  planned : decision.access.point.inPlan = decision.access.plan?.isSome

section

variable {params : LearnedParams} {decision : Decision} {trap : Trap}

theorem trap?_eq (h : decision.trap? = some trap) :
    trap.point = decision.access.point.captureStack ∧
      trap.id = decision.before.shared.traps.lastId + 1 := by
  have hbooking := decision.before.decide_booking decision.access.point
    decision.access.classification decision.access.plan?
  rw [show (decision.before.decide _ _ _).2.1 = some trap from h] at hbooking
  generalize (decision.before.decide _ _ _).2.2.shared = after at hbooking
  cases hbooking with
  | trapped delayMs => exact ⟨rfl, rfl⟩

-- The traps after a check: one more with the next number, or the same.
theorem check_traps (decision : Decision) :
    let before := decision.before.shared.traps
    let after := (decision.before.decide decision.access.point decision.access.classification
      decision.access.plan?).2.2.shared.traps
    (decision.trap? = none ∧ after = before) ∨
      ∃ trap, decision.trap? = some trap ∧ after.lastId = trap.id ∧
        after.all.Perm (trap :: before.all) := by
  have hbooking := decision.before.decide_booking decision.access.point
    decision.access.classification decision.access.plan?
  unfold trap?
  generalize (decision.before.decide _ _ _).2.1 = trap? at hbooking ⊢
  generalize (decision.before.decide _ _ _).2.2.shared = shared at hbooking ⊢
  cases hbooking with
  | passed => exact .inl ⟨rfl, rfl⟩
  | trapped delayMs =>
      refine .inr ⟨_, rfl, rfl, ?_⟩
      exact { decision.before.shared.traps with
        lastId := decision.before.shared.traps.lastId + 1 }.all_register_perm _

theorem Ready.trapped (h : decision.Ready params) (ht : decision.trap? = some trap) :
    (trap.point.isWrite = true ∨ decision.access.plan?.isSome = true) ∧
      (decision.Ordinary → params.trapUnknownPoints = true ∧
        decision.before.shared.active.current = 0) := by
  obtain ⟨delayMs, hterms⟩ := Learned.terms_of_decide ht
  obtain ⟨hsite, hreason⟩ := Learned.trapTerms_eligible hterms
  rw [h.planned, h.consistent.weigh_isSome_iff, h.params_eq] at hreason
  refine ⟨hsite.symm.imp_left fun hwrite => ?_, ?_⟩
  · rw [(trap?_eq ht).1]
    exact hwrite
  · rintro ⟨hunplanned, hquiet⟩
    rcases hreason with hplan | ⟨pair, hlive, hcontains⟩ | hfirst
    · rw [hunplanned] at hplan
      cases hplan
    · rw [hquiet pair hlive] at hcontains
      cases hcontains
    · exact hfirst

end

end Decision

namespace Interleaving

-- The check that an action makes, if it is one of the learned controller.
def decisionOf? (s : Interleaving) : Action → Option Decision
  | .advance thread =>
      match s.controller, s.stages.get? thread with
      | .learned before, some (.checking access) => some { before, access }
      | _, _ => none
  | _ => none

-- The checks of a run, in order.
def decisions (s : Interleaving) : List Action → List Decision
  | [] => []
  | action :: rest =>
      match s.step action with
      | none => []
      | some (_, next) => (s.decisionOf? action).toList ++ next.decisions rest

-- What every step preserves holds after every run, of its actions and checks and its state.
theorem exec_decisions_induction {P : List Action → List Decision → Interleaving → Prop}
    (hstep : ∀ past made s action output s', P past made s →
      s.step action = some (output, s') →
        P (past ++ [action]) (made ++ (s.decisionOf? action).toList) s')
    {s s' : Interleaving} {actions past : List Action} {made : List Decision}
    {outputs : List Output} (h : s.exec actions = some (outputs, s')) (hstart : P past made s) :
    P (past ++ actions) (made ++ s.decisions actions) s' := by
  induction actions generalizing s past made outputs with
  | nil =>
      obtain ⟨-, rfl⟩ := Prod.mk.inj (Option.some.inj h)
      simpa [decisions] using hstart
  | cons action rest ih =>
      obtain ⟨output, next, later, hnext, hrest, -⟩ := exec_uncons h
      have hlast := ih hrest (hstep past made s action output next hstart hnext)
      simpa [decisions, hnext] using hlast

-- A trap that was set at an ordinary point.
def IsOrdinary (made : List Decision) (trap : Trap) : Prop :=
  ∃ decision ∈ made, decision.trap? = some trap ∧ decision.Ordinary

section

variable {s s' : Interleaving} {action : Action} {output : Output}

theorem decisionOf?_eq_some {decision : Decision} (h : s.decisionOf? action = some decision) :
    ∃ thread, action = .advance thread ∧ s.controller = .learned decision.before ∧
      s.stages.get? thread = some (.checking decision.access) := by
  cases action with
  | arrive call => cases h
  | forget address => cases h
  | advance thread =>
      simp only [decisionOf?] at h
      split at h
      · rename_i before access hbefore hstage
        obtain rfl := Option.some.inj h
        exact ⟨thread, rfl, hbefore, hstage⟩
      · cases h

theorem decisionOf?_checking {c : Learned} {thread : ThreadId} {access : Access}
    (hc : s.controller = .learned c) (hstage : s.stages.get? thread = some (.checking access)) :
    s.decisionOf? (.advance thread) = some { before := c, access } := by
  simp only [decisionOf?, hc, hstage]

-- What a step does to the traps: it sets none, or its check sets one with the next number.
def SetsTrap (s : Interleaving) (action : Action) (after : TrapStore) : Prop :=
  ((∀ decision ∈ s.decisionOf? action, decision.trap? = none) ∧
      after.lastId = s.controller.shared.traps.lastId ∧
      after.all ⊆ s.controller.shared.traps.all) ∨
    ∃ decision trap, s.decisionOf? action = some decision ∧ decision.trap? = some trap ∧
      after.lastId = trap.id ∧ after.all.Perm (trap :: s.controller.shared.traps.all)

theorem step_traps {c : Learned} (hc : s.controller = .learned c)
    (h : s.step action = some (output, s')) : s.SetsTrap action s'.controller.shared.traps := by
  have hsame : ∀ after : TrapStore, after = s.controller.shared.traps →
      (∀ decision, s.decisionOf? action = some decision → decision.trap? = none) →
        s.SetsTrap action after := by
    rintro after rfl hnone
    exact .inl ⟨hnone, rfl, List.Subset.refl _⟩
  have hidle : ∀ {thread : ThreadId} {stage : Stage}, action = .advance thread →
      s.stages.get? thread = some stage → (∀ access, stage ≠ .checking access) →
        ∀ decision, s.decisionOf? action = some decision → decision.trap? = none := by
    rintro thread stage rfl hstage hother decision hdecision
    obtain ⟨other, he, -, hchecking⟩ := decisionOf?_eq_some hdecision
    obtain rfl := Action.advance.inj he
    obtain rfl := Option.some.inj (hstage.symm.trans hchecking)
    exact absurd rfl (hother decision.access)
  cases stepped h with
  | arrive call free =>
      exact hsame _ (s.controller.alike_approach call).traps fun _ hdecision => by cases hdecision
  | forget address =>
      exact hsame _ (s.controller.alike_forget address).traps fun _ hdecision => by cases hdecision
  | advance thread stage current =>
      by_cases hchecking : ∃ access, stage = .checking access
      · obtain ⟨access, rfl⟩ := hchecking
        have hdecision := decisionOf?_checking hc current
        simp only [hc]
        rcases Decision.check_traps { before := c, access } with
          ⟨hnone, htraps⟩ | ⟨trap, hset, hlast⟩
        · refine hsame _ (htraps.trans (by rw [hc]; rfl)) fun decision hd => ?_
          obtain rfl := Option.some.inj (hdecision.symm.trans hd)
          exact hnone
        · refine .inr ⟨_, trap, hdecision, hset, ?_⟩
          rw [hc]
          exact hlast
      · have hother : ∀ access, stage ≠ .checking access :=
          fun access he => hchecking ⟨access, he⟩
        exact .inl ⟨hidle rfl current hother,
          (s.controller.advance_turn stage).traps_away hother⟩

-- The traps in place are those of checks, and at most one of them is ordinary.
structure Traced (made : List Decision) (store : TrapStore) : Prop where
  numbered : ∀ decision ∈ made, ∀ trap ∈ decision.trap?, trap.id ≤ store.lastId
  distinct : ((made.filterMap Decision.trap?).map Trap.id).Nodup
  known : ∀ trap ∈ store.all, ∃ decision ∈ made, decision.trap? = some trap
  single : ∀ trap ∈ store.all, ∀ other ∈ store.all,
    IsOrdinary made trap → IsOrdinary made other → trap = other

section

variable {made more : List Decision} {store after : TrapStore}

theorem Traced.quiet (h : Traced made store) (hnone : ∀ decision ∈ more, decision.trap? = none)
    (hlast : after.lastId = store.lastId) (hkept : after.all ⊆ store.all) :
    Traced (made ++ more) after := by
  have hold : ∀ {decision : Decision} {trap : Trap}, decision ∈ made ++ more →
      decision.trap? = some trap → decision ∈ made := by
    intro decision trap hm ht
    refine (List.mem_append.mp hm).resolve_right fun hnew => ?_
    rw [hnone decision hnew] at ht
    cases ht
  have hordinary : ∀ {trap : Trap}, IsOrdinary (made ++ more) trap → IsOrdinary made trap :=
    fun ⟨decision, hm, ht, hord⟩ => ⟨decision, hold hm ht, ht, hord⟩
  refine ⟨?_, ?_, ?_, ?_⟩
  · intro decision hm trap ht
    rw [hlast]
    exact h.numbered decision (hold hm ht) trap ht
  · rw [List.filterMap_append, List.filterMap_eq_nil_iff.mpr hnone, List.append_nil]
    exact h.distinct
  · intro trap hm
    obtain ⟨decision, hin, ht⟩ := h.known trap (hkept hm)
    exact ⟨decision, List.mem_append_left _ hin, ht⟩
  · intro trap hm other hmo ho ho'
    exact h.single trap (hkept hm) other (hkept hmo) (hordinary ho) (hordinary ho')

-- A trap that is set at an ordinary point finds no other trap.
theorem Traced.set (h : Traced made store) {decision : Decision} {trap : Trap}
    (ht : decision.trap? = some trap) (hid : trap.id = store.lastId + 1)
    (hlast : after.lastId = trap.id) (hall : after.all.Perm (trap :: store.all))
    (halone : decision.Ordinary → store.all = []) : Traced (made ++ [decision]) after := by
  have hless : ∀ {earlier : Decision} {other : Trap}, earlier ∈ made →
      earlier.trap? = some other → other.id < trap.id := by
    intro earlier other hm he
    have := h.numbered earlier hm other he
    omega
  refine ⟨?_, ?_, ?_, ?_⟩
  · intro earlier hm other he
    rw [hlast]
    rcases List.mem_append.mp hm with hold | hnew
    · exact Nat.le_of_lt (hless hold he)
    · obtain rfl := List.mem_singleton.mp hnew
      obtain rfl := Option.some.inj (ht.symm.trans he)
      exact Nat.le_refl _
  · rw [List.filterMap_append, List.map_append, List.nodup_append]
    refine ⟨h.distinct, by simp [ht], ?_⟩
    intro id hm id' hm'
    obtain ⟨other, hother, rfl⟩ := List.mem_map.mp hm
    obtain ⟨earlier, hearlier, he⟩ := List.mem_filterMap.mp hother
    have hlt := hless hearlier he
    simp only [List.filterMap_cons, ht, List.filterMap_nil, List.map_cons, List.map_nil,
      List.mem_singleton] at hm'
    omega
  · intro other hm
    rcases List.mem_cons.mp (hall.mem_iff.mp hm) with rfl | hold
    · exact ⟨decision, List.mem_append_right _ (List.mem_singleton_self _), ht⟩
    · obtain ⟨earlier, hin, he⟩ := h.known other hold
      exact ⟨earlier, List.mem_append_left _ hin, he⟩
  · by_cases hord : decision.Ordinary
    · -- it is the only trap
      have honly : ∀ other ∈ after.all, other = trap := by
        intro other hm
        have hm' := hall.mem_iff.mp hm
        rw [halone hord] at hm'
        exact List.mem_singleton.mp hm'
      intro first hf second hs _ _
      rw [honly first hf, honly second hs]
    · -- it is not ordinary, and no earlier check had its number
      have hbefore : ∀ other ∈ after.all, IsOrdinary (made ++ [decision]) other →
          other ∈ store.all ∧ IsOrdinary made other := by
        rintro other hm ⟨earlier, hin, he, hordinary⟩
        rcases List.mem_append.mp hin with hold | hnew
        · refine ⟨?_, earlier, hold, he, hordinary⟩
          refine (List.mem_cons.mp (hall.mem_iff.mp hm)).resolve_left ?_
          rintro rfl
          exact absurd (hless hold he) (Nat.lt_irrefl _)
        · obtain rfl := List.mem_singleton.mp hnew
          exact absurd hordinary hord
      intro first hf second hs ho ho'
      obtain ⟨hf, ho⟩ := hbefore first hf ho
      obtain ⟨hs, ho'⟩ := hbefore second hs ho'
      exact h.single first hf second hs ho ho'

end

-- The books of a run with its checks so far, each of the access of a call.
structure Ordered (params : LearnedParams) (past : List Action) (made : List Decision)
    (s : Interleaving) : Prop where
  booked : s.Booked
  controller : ∃ c, s.controller = .learned c ∧ c.params = params ∧ c.danger.Consistent
  checking : ∀ thread access, s.stages.get? thread = some (.checking access) →
    access.point.inPlan = access.plan?.isSome ∧
      ∃ (c : Learned) (call : Call), .arrive call ∈ past ∧ access.Of (.learned c) call
  ready : ∀ decision ∈ made, decision.Ready params ∧
    ∃ (c : Learned) (call : Call), .arrive call ∈ past ∧ decision.access.Of (.learned c) call
  traced : Traced made s.controller.shared.traps

section

variable {params : LearnedParams} {past : List Action} {made : List Decision}

theorem Ordered.controller_step (h : s.Ordered params past made)
    (hstep : s.step action = some (output, s')) :
    ∃ c, s'.controller = .learned c ∧ c.params = params ∧ c.danger.Consistent := by
  obtain ⟨c, hc, hparams, hconsistent⟩ := h.controller
  cases stepped hstep with
  | arrive call free =>
      simp only [hc]
      exact ⟨_, rfl, (c.approach_heard call).params.trans hparams,
        Learned.consistent_approach hconsistent call⟩
  | advance thread stage current =>
      obtain ⟨after, hafter, hsame, hkept⟩ := Learned.consistent_advance hconsistent stage
      simp only [hc]
      exact ⟨after, hafter, hsame.trans hparams, hkept⟩
  | forget address =>
      obtain ⟨hsame, hkept⟩ := Learned.consistent_forget hconsistent address
      simp only [hc]
      exact ⟨_, rfl, hsame.trans hparams, hkept⟩

theorem Ordered.checking_step (h : s.Ordered params past made)
    (hstep : s.step action = some (output, s')) (thread : ThreadId) (access : Access)
    (hstage : s'.stages.get? thread = some (.checking access)) :
    access.point.inPlan = access.plan?.isSome ∧
      ∃ (c : Learned) (call : Call), .arrive call ∈ past ++ [action] ∧
        access.Of (.learned c) call := by
  have hbefore : s.stages.get? thread = some (.checking access) →
      access.point.inPlan = access.plan?.isSome ∧
        ∃ (c : Learned) (call : Call), .arrive call ∈ past ++ [action] ∧
          access.Of (.learned c) call := by
    intro hold
    obtain ⟨hplan, c, call, hm, hof⟩ := h.checking thread access hold
    exact ⟨hplan, c, call, List.mem_append_left _ hm, hof⟩
  obtain ⟨c, hc, -, -⟩ := h.controller
  cases stepped hstep with
  | arrive call free =>
      simp only [Table.get?_set] at hstage
      split at hstage
      · obtain ⟨found, hfound, he⟩ := Option.map_eq_some_iff.mp hstage
        obtain rfl := Stage.checking.inj he
        rw [hc] at hfound
        exact ⟨c.approach_inPlan call hfound, c, call,
          List.mem_append_right _ (List.mem_singleton_self _), c.approach_of call hfound⟩
      · exact hbefore hstage
  | advance other stage current =>
      simp only [Table.get?_set] at hstage
      split at hstage
      · exact absurd hstage (s.controller.advance_not_checking stage access)
      · exact hbefore hstage
  | forget address => exact hbefore hstage

theorem Ordered.step (h : s.Ordered params past made)
    (hstep : s.step action = some (output, s')) :
    s'.Ordered params (past ++ [action]) (made ++ (s.decisionOf? action).toList) := by
  obtain ⟨c, hc, hparams, hconsistent⟩ := h.controller
  have hready : ∀ decision ∈ s.decisionOf? action, decision.Ready params ∧
      ∃ (c : Learned) (call : Call), .arrive call ∈ past ∧
        decision.access.Of (.learned c) call := by
    intro decision hdecision
    obtain ⟨thread, -, hbefore, hstage⟩ := decisionOf?_eq_some hdecision
    obtain ⟨hplan, hof⟩ := h.checking thread decision.access hstage
    obtain rfl := Controller.learned.inj (hc.symm.trans hbefore)
    exact ⟨⟨hparams, hconsistent, hplan⟩, hof⟩
  have hmade : ∀ decision ∈ made ++ (s.decisionOf? action).toList, decision.Ready params ∧
      ∃ (c : Learned) (call : Call), .arrive call ∈ past ++ [action] ∧
        decision.access.Of (.learned c) call := by
    intro decision hm
    obtain ⟨hwas, c, call, hcall, hof⟩ : decision.Ready params ∧
        ∃ (c : Learned) (call : Call), .arrive call ∈ past ∧
          decision.access.Of (.learned c) call := by
      rcases List.mem_append.mp hm with hold | hnew
      · exact h.ready decision hold
      · exact hready decision (Option.mem_toList.mp hnew)
    exact ⟨hwas, c, call, List.mem_append_left _ hcall, hof⟩
  refine ⟨h.booked.step hstep, h.controller_step hstep, h.checking_step hstep, hmade, ?_⟩
  rcases step_traps hc hstep with
    ⟨hnone, hlast, hkept⟩ | ⟨decision, trap, hdecision, ht, hlast, hall⟩
  · exact h.traced.quiet (fun decision hm => hnone decision (Option.mem_toList.mp hm)) hlast hkept
  · obtain ⟨thread, -, hbefore, -⟩ := decisionOf?_eq_some hdecision
    have hshared : s.controller.shared = decision.before.shared := by
      rw [hbefore]
      rfl
    have halone : decision.Ordinary → s.controller.shared.traps.all = [] := by
      intro hordinary
      have hidle := (((hready decision hdecision).1.trapped ht).2 hordinary).2
      have hfew := h.booked.outstanding_le_current
      rw [TrapStore.outstanding_eq_length_all, hshared, hidle] at hfew
      rw [hshared]
      exact List.eq_nil_of_length_eq_zero (Nat.le_zero.mp hfew)
    rw [hdecision, Option.toList_some]
    refine h.traced.set ht ?_ hlast hall halone
    rw [hshared]
    exact (Decision.trap?_eq ht).2

end

end

theorem traced_empty : Traced [] {} where
  numbered _ hm := absurd hm List.not_mem_nil
  distinct := List.nodup_nil
  known _ hm := absurd hm List.not_mem_nil
  single _ hm := absurd hm List.not_mem_nil

theorem ordered_newLearned (config : RuntimeConfig) (classifier : Classifier)
    (entropy : RandomSource) (plans : PlanStore) (blacklist : List LocationPair)
    (lockApis : PatternSet) :
    Ordered (config.learned.getD {}) [] []
      { controller :=
          Detector.newLearned config classifier entropy plans blacklist lockApis } where
  booked := (Controller.Fresh.learned config classifier entropy plans blacklist lockApis).booked
  controller := ⟨_, rfl, rfl, DangerTracker.consistent_empty⟩
  checking thread access hstage := by
    rw [Table.get?_empty] at hstage
    cases hstage
  ready _ hm := absurd hm List.not_mem_nil
  traced := traced_empty

-- However checks and wake-ups follow one another, a trap is set for a write or for a planned point.
-- At a point without a plan whose location is in no live pair it is set only when unknown points
-- are to be trapped and no trap at all is active; so that no two such traps are ever in place, and
-- none if unknown points are not to be trapped. Every trap in place is that of one check.
theorem ordinary_traps_never_stack (config : RuntimeConfig) (classifier : Classifier)
    (entropy : RandomSource) (plans : PlanStore) (blacklist : List LocationPair)
    (lockApis : PatternSet) (actions : List Action) (outputs : List Output) (s : Interleaving) :
    let params := config.learned.getD {}
    let start : Interleaving :=
      { controller := Detector.newLearned config classifier entropy plans blacklist lockApis }
    let made := start.decisions actions
    let traps := s.controller.shared.traps.all
    start.exec actions = some (outputs, s) →
      (∀ decision ∈ made,
        (∃ (c : Learned) (call : Call), .arrive call ∈ actions ∧
          decision.access.Of (.learned c) call) ∧
        ∀ trap ∈ decision.trap?, trap.point = decision.access.point.captureStack ∧
          (trap.point.isWrite = true ∨ decision.access.plan?.isSome = true) ∧
          (decision.Ordinary → params.trapUnknownPoints = true ∧
            decision.before.shared.active.current = 0)) ∧
      ((made.filterMap Decision.trap?).map Trap.id).Nodup ∧ (traps.map Trap.id).Nodup ∧
      (∀ trap ∈ traps, ∃ decision ∈ made, decision.trap? = some trap) ∧
      (∀ trap ∈ traps, ∀ other ∈ traps, IsOrdinary made trap → IsOrdinary made other →
        trap = other) ∧
      (params.trapUnknownPoints = false → ∀ trap ∈ traps, ¬ IsOrdinary made trap) := by
  intro params start made traps h
  have hlast : s.Ordered params actions made :=
    exec_decisions_induction (fun _ _ _ _ _ _ h hstep => h.step hstep) h
      (ordered_newLearned config classifier entropy plans blacklist lockApis)
  refine ⟨?_, hlast.traced.distinct, hlast.booked.sound.ids, hlast.traced.known,
    hlast.traced.single, ?_⟩
  · intro decision hm
    obtain ⟨hready, hof⟩ := hlast.ready decision hm
    exact ⟨hof, fun trap ht => ⟨(Decision.trap?_eq ht).1, hready.trapped ht⟩⟩
  · rintro hoff trap - ⟨decision, hm, ht, hordinary⟩
    have hon := (((hlast.ready decision hm).1.trapped ht).2 hordinary).1
    rw [hoff] at hon
    cases hon

-- Two threads come to two instances that nothing is known of.
def strangers : List Action :=
  [.arrive (Sample.put 1), .arrive { Sample.put 2 with instance? := some 128 }, .advance 1,
    .advance 2]

-- Only the first one is trapped.
theorem ordinary_traps_never_stack_of_two :
    let made := decisions { controller := Sample.tracked } strangers
    ∃ outputs s trap, exec { controller := Sample.tracked } strangers = some (outputs, s) ∧
      made.length = 2 ∧ trap ∈ s.controller.shared.traps.all ∧ IsOrdinary made trap ∧
        ∀ other ∈ s.controller.shared.traps.all, IsOrdinary made other → other = trap := by
  intro made
  have hready : (exec { controller := Sample.tracked } strangers).any (fun told =>
      made.length == 2 && told.2.controller.shared.traps.all.any fun trap =>
        made.any fun decision => decision.trap? == some trap && decide decision.Ordinary) =
          true := by
    decide +kernel
  obtain ⟨⟨outputs, s⟩, hexec, hready⟩ := (Option.any_eq_true _ _).mp hready
  obtain ⟨htwo, hready⟩ := Bool.and_eq_true_iff.mp hready
  obtain ⟨trap, hm, hready⟩ := List.any_eq_true.mp hready
  obtain ⟨decision, hin, hready⟩ := List.any_eq_true.mp hready
  obtain ⟨hset, hordinary⟩ := Bool.and_eq_true_iff.mp hready
  have hset : IsOrdinary made trap :=
    ⟨decision, hin, beq_iff_eq.mp hset, of_decide_eq_true hordinary⟩
  obtain ⟨-, -, -, -, hsingle, -⟩ :=
    ordinary_traps_never_stack (.ofLearned .inMemory) Sample.instances Sample.entropy {} [] {} _
      outputs s hexec
  exact ⟨outputs, s, trap, hexec, beq_iff_eq.mp htwo, hm, hset,
    fun other hmo ho => hsingle other hmo trap hm ho hset⟩

end Interleaving

end DelayInjection
