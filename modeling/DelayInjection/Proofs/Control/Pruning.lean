import Mathlib.Algebra.Order.BigOperators.Group.Finset
import Mathlib.Algebra.BigOperators.Group.Finset.Basic
import DelayInjection.Proofs.Control.Credit
import DelayInjection.Proofs.Detector

-- Runs of the learned controller, operation by operation. Every point gets credit once at most, it
-- pays for no more removals than it got credit, and nothing else removes a dangerous pair.

namespace DelayInjection

section

variable {α β : Type}

private theorem nodup_of_subperm {part whole : List α} (h : part.Subperm whole)
    (hn : whole.Nodup) : part.Nodup := by
  obtain ⟨kept, hperm, hkept⟩ := h
  exact hperm.nodup_iff.mp (hkept.nodup hn)

private theorem map_subperm (f : α → β) {part whole : List α} (h : part.Subperm whole) :
    (part.map f).Subperm (whole.map f) := by
  obtain ⟨kept, hperm, hkept⟩ := h
  exact ⟨kept.map f, hperm.map f, hkept.map f⟩

-- Units that are all of some kinds, and at most so many of a kind.
theorem length_le_of_count_le [DecidableEq α] {units kinds : List α} {most : Nat}
    (hkind : ∀ unit ∈ units, unit ∈ kinds) (hcount : ∀ kind, units.count kind ≤ most) :
    units.length ≤ most * kinds.length := by
  have hsubset : units.toFinset ⊆ kinds.toFinset := fun unit hm =>
    List.mem_toFinset.mpr (hkind unit (List.mem_toFinset.mp hm))
  have hkinds : units.toFinset.card ≤ kinds.length :=
    (Finset.card_le_card hsubset).trans (List.toFinset_card_le kinds)
  calc
    units.length = ∑ kind ∈ units.toFinset, units.count kind :=
      (List.sum_toFinset_count_eq_length units).symm
    _ ≤ units.toFinset.card • most :=
      Finset.sum_le_card_nsmul _ _ _ fun kind _ => hcount kind
    _ = most * units.toFinset.card := Nat.mul_comm _ _
    _ ≤ most * kinds.length := Nat.mul_le_mul_left most hkinds

-- What calls hold and what they have handed out is no more than what was given out.
def Held (part? : Position → Option α) (positions : Table ThreadId Position)
    (used given : List α) : Prop :=
  (positions.values.filterMap part? ++ used).Subperm given

section

variable {part? : Position → Option α} {positions : Table ThreadId Position}
  {used given : List α}

theorem Held.used_subperm (h : Held part? positions used given) : used.Subperm given :=
  (List.sublist_append_right _ _).subperm.trans h

theorem Held.mono {more : List α} (h : Held part? positions used given)
    (hmore : given.Subperm more) : Held part? positions used more :=
  h.trans hmore

-- A call that moves passes on, hands out and gets no more than it held and is given.
theorem Held.set (h : Held part? positions used given) (thread : ThreadId)
    (position? : Option Position) {out inn : List α}
    (hmove : ((position?.bind part?).toList ++ out).Subperm
      (((positions.get? thread).bind part?).toList ++ inn)) :
    Held part? (positions.set thread position?) (used ++ out) (given ++ inn) := by
  classical
  have hpart : ∀ position? : Option Position,
      position?.toList.filterMap part? = (position?.bind part?).toList := by
    intro position?
    cases position? with
    | none => rfl
    | some position => cases h : part? position <;> simp [h]
  have hvalues := (positions.values_set_perm thread position?).filterMap part?
  rw [List.filterMap_append, List.filterMap_append, hpart, hpart] at hvalues
  refine List.subperm_ext_iff.mpr fun unit _ => ?_
  have hheld := h.count_le unit
  have hmoved := hmove.count_le unit
  have hcount := hvalues.count_eq unit
  simp only [List.count_append] at hheld hmoved hcount ⊢
  omega

theorem Held.pass (h : Held part? positions used given) (thread : ThreadId)
    (position? : Option Position) {out : List α}
    (hmove : ((position?.bind part?).toList ++ out).Subperm
      ((positions.get? thread).bind part?).toList) :
    Held part? (positions.set thread position?) (used ++ out) given := by
  rw [← List.append_nil given]
  exact h.set thread position? (by rwa [List.append_nil])

end

end

namespace Learned

-- Credit together with the credit paid so far is what the point was granted, if it was.
structure Balanced (size : Int) (granted paid : List Nat) (c : Learned) : Prop where
  balance : ∀ serial,
    c.creditAt serial + paid.count serial = if serial ∈ granted then size else 0
  solvent : ∀ serial ∈ paid, 0 ≤ c.creditAt serial

section

variable {size : Int} {granted paid : List Nat} {c c' : Learned} {serial : Nat}

theorem Balanced.mem_granted (h : c.Balanced size granted paid) (hm : serial ∈ paid) :
    serial ∈ granted := by
  by_contra hungranted
  have hpos : 0 < paid.count serial := List.count_pos_iff.mpr hm
  have hcredit := h.solvent serial hm
  have hzero := h.balance serial
  rw [if_neg hungranted] at hzero
  omega

theorem Balanced.count_le (h : c.Balanced size granted paid) (serial : Nat) :
    paid.count serial ≤ size.toNat := by
  by_cases hm : serial ∈ paid
  · have hcredit := h.solvent serial hm
    have hgranted := h.balance serial
    rw [if_pos (h.mem_granted hm)] at hgranted
    omega
  · rw [List.count_eq_zero_of_not_mem hm]
    exact Nat.zero_le _

theorem Balanced.length_le (h : c.Balanced size granted paid) :
    paid.length ≤ size.toNat * granted.length :=
  length_le_of_count_le (fun _ hm => h.mem_granted hm) h.count_le

theorem Balanced.keep (h : c.Balanced size granted paid)
    (hsame : ∀ serial, c'.creditAt serial = c.creditAt serial) :
    c'.Balanced size granted paid :=
  ⟨fun serial => hsame serial ▸ h.balance serial,
    fun serial hm => hsame serial ▸ h.solvent serial hm⟩

theorem Balanced.grant (h : c.Balanced size granted paid) (hnew : serial ∉ granted)
    (hcredit : c'.creditAt serial = size)
    (hkept : ∀ other, serial ≠ other → c'.creditAt other = c.creditAt other) :
    c'.Balanced size (granted ++ [serial]) paid := by
  have hunpaid : serial ∉ paid := fun hm => hnew (h.mem_granted hm)
  refine ⟨fun other => ?_, fun other hm => ?_⟩
  · by_cases he : serial = other
    · subst he
      have hzero := List.count_eq_zero_of_not_mem hunpaid
      simp [hzero, hcredit]
    · have hbalance := h.balance other
      simpa [hkept other he, Ne.symm he] using hbalance
  · have hne : serial ≠ other := fun he => hunpaid (he ▸ hm)
    rw [hkept other hne]
    exact h.solvent other hm

theorem Balanced.pay (h : c.Balanced size granted paid) (hpos : 0 < c.creditAt serial)
    (hcredit : c'.creditAt serial = c.creditAt serial - 1)
    (hkept : ∀ other, serial ≠ other → c'.creditAt other = c.creditAt other) :
    c'.Balanced size granted (paid ++ [serial]) := by
  refine ⟨fun other => ?_, fun other hm => ?_⟩
  · have hbalance := h.balance other
    by_cases he : serial = other
    · subst he
      rw [List.count_append, List.count_singleton_self, hcredit]
      omega
    · simpa [hkept other he, List.count_singleton, he] using hbalance
  · by_cases he : serial = other
    · subst he
      omega
    · have hold : other ∈ paid := by simpa [Ne.symm he] using hm
      rw [hkept other he]
      exact h.solvent other hold

theorem Balanced.step (h : c.Balanced size granted paid) {position? : Option Position}
    (hop : c.Operated position? c') (hsize : c.params.inferSize.toInt = size)
    (hnew : ∀ trap ∈ position?.bind Position.sleeping?, trap.point.serial ∉ granted) :
    c'.Balanced size
      (granted ++ (position?.bind Position.sleeping?).toList.map (·.point.serial))
      (paid ++ (position?.bind c.payment?).toList.map (·.blocker.serial)) := by
  have hpaid := hop.paid
  have hgranted := hop.granted
  have hkept := hop.kept
  -- the two cannot fall into one operation
  have hunpaid : ∀ payment ∈ position?.bind c.payment?,
      position?.bind Position.sleeping? = none := by
    intro payment hm
    obtain ⟨position, rfl, hpayment⟩ := Option.bind_eq_some_iff.mp hm
    exact (payment?_eq_some hpayment).2.2
  generalize position?.bind Position.sleeping? = grant? at hnew hgranted hkept hunpaid ⊢
  generalize position?.bind c.payment? = payment? at hpaid hkept hunpaid ⊢
  cases payment? with
  | some payment =>
      obtain rfl := hunpaid payment rfl
      obtain ⟨hpos, hcredit⟩ := hpaid payment rfl
      rw [Option.toList_none, List.map_nil, List.append_nil]
      exact h.pay hpos hcredit fun other he =>
        hkept other forall_mem_none fun _ hm => Option.some.inj hm ▸ he
  | none =>
      rw [Option.toList_none, List.map_nil, List.append_nil]
      cases grant? with
      | none =>
          rw [Option.toList_none, List.map_nil, List.append_nil]
          exact h.keep fun serial => hkept serial forall_mem_none forall_mem_none
      | some trap =>
          exact h.grant (hnew trap rfl) ((hgranted trap rfl).trans hsize) fun other he =>
            hkept other (fun _ hm => Option.some.inj hm ▸ he) forall_mem_none

end

end Learned

namespace Weave

open Interleaving (Action)

-- Where the call stands that goes on with an action.
def current? (s : Weave) : Action → Option Position
  | .advance thread => s.positions.get? thread
  | _ => none

theorem current?_eq_some {s : Weave} {action : Action} {position : Position}
    (h : s.current? action = some position) :
    ∃ thread, action = .advance thread ∧ s.positions.get? thread = some position := by
  cases action with
  | advance thread => exact ⟨thread, rfl, h⟩
  | arrive call | forget address => cases h

namespace Step

def position? (step : Step) : Option Position := step.before.current? step.action

-- The trap after whose wait its point gets credit.
def grant? (step : Step) : Option Trap := step.position?.bind Position.sleeping?

def payment? (step : Step) : Option Payment :=
  step.position?.bind step.before.controller.payment?

-- What was paid for the removal that is made.
def removal? (step : Step) : Option Payment := step.position?.bind Position.removing?

def lost (step : Step) : List LocationPair :=
  step.before.controller.danger.lost step.after.controller.danger

-- The thread of a trap grants credit to the point of the trap; the thread of a call pays with a
-- unit of the credit of a point of another thread, which is not overdrawn; no other credit changes,
-- and no pair goes but the one that was paid for.
structure Fair (params : LearnedParams) (step : Step) : Prop where
  granted : ∀ trap ∈ step.grant?, step.action = .advance trap.point.thread ∧
    step.after.controller.credit trap.point = params.inferSize.toInt
  paid : ∀ payment ∈ step.payment?, step.action = .advance payment.payer.thread ∧
    payment.blocker.thread ≠ payment.payer.thread ∧
    step.after.controller.credit payment.blocker =
      step.before.controller.credit payment.blocker - 1 ∧
    0 ≤ step.after.controller.credit payment.blocker
  kept : ∀ point : Point, (∀ trap ∈ step.grant?, trap.point.serial ≠ point.serial) →
    (∀ payment ∈ step.payment?, payment.blocker.serial ≠ point.serial) →
      step.after.controller.credit point = step.before.controller.credit point
  lost : step.lost.Subperm (step.removal?.toList.map Payment.pair)

end Step

-- The traps whose points get credit in a run.
def grants (steps : List Step) : List Trap := steps.filterMap Step.grant?

def payments (steps : List Step) : List Payment := steps.filterMap Step.payment?

def removals (steps : List Step) : List Payment := steps.filterMap Step.removal?

-- The traps that a run tells of.
def trapsTold (steps : List Step) : List Trap := (told steps).filterMap Event.trap?

section

variable {s s' : Weave} {action : Action} {output : Output}

theorem grants_concat (past : List Step) : grants (past ++ [⟨s, action, output, s'⟩]) =
    grants past ++ ((s.current? action).bind Position.sleeping?).toList := by
  cases h : (s.current? action).bind Position.sleeping? <;>
    simp [grants, Step.grant?, Step.position?, h]

theorem payments_concat (past : List Step) : payments (past ++ [⟨s, action, output, s'⟩]) =
    payments past ++ ((s.current? action).bind s.controller.payment?).toList := by
  cases h : (s.current? action).bind s.controller.payment? <;>
    simp [payments, Step.payment?, Step.position?, h]

theorem removals_concat (past : List Step) : removals (past ++ [⟨s, action, output, s'⟩]) =
    removals past ++ ((s.current? action).bind Position.removing?).toList := by
  cases h : (s.current? action).bind Position.removing? <;>
    simp [removals, Step.removal?, Step.position?, h]

theorem trapsTold_concat (past : List Step) : trapsTold (past ++ [⟨s, action, output, s'⟩]) =
    trapsTold past ++ output.events.filterMap Event.trap? := by
  simp [trapsTold, told]

theorem operated_step (h : s.step action = some (output, s')) :
    s.controller.Operated (s.current? action) s'.controller := by
  cases stepped h with
  | arrive call free =>
      have hquiet : s.controller.Quiet (s.controller.stamp call).2.2 :=
        ⟨rfl, Nat.le_succ _, rfl, fun _ _ hb => hb, List.Subset.refl _⟩
      exact hquiet.operated none rfl rfl
  | advance thread position current =>
      rw [current?, current]
      exact s.controller.operated_operate position
  | forget address =>
      have hsame : (s.controller.forget address).2.2.accounts = s.controller.accounts := by
        unfold Learned.forget
        dsimp only
        split <;> rfl
      exact (Learned.Quiet.of_accounts hsame).operated none rfl rfl

-- A point that may stall a thread: it got credit, and is one of another thread.
def Stalls (granted : List Trap) (blocker : Point) (thread : ThreadId) : Prop :=
  blocker ∈ granted.map Trap.point ∧ blocker.thread ≠ thread

theorem Stalls.mono {granted more : List Trap} {blocker : Point} {thread : ThreadId}
    (h : Stalls granted blocker thread) : Stalls (granted ++ more) blocker thread := by
  refine ⟨?_, h.2⟩
  rw [List.map_append]
  exact List.mem_append_left _ h.1

-- The call of a thread knows its own point, and of others only such that may stall it.
structure Knows (granted : List Trap) (thread : ThreadId) (position : Position) : Prop where
  own : position.point.thread = thread
  blocker : ∀ blocker ∈ position.blocker?, Stalls granted blocker thread
  marking : ∀ trap ∈ position.marking?, trap ∈ granted

theorem Knows.mono {granted more : List Trap} {thread : ThreadId} {position : Position}
    (h : Knows granted thread position) : Knows (granted ++ more) thread position :=
  ⟨h.own, fun blocker hm => (h.blocker blocker hm).mono,
    fun trap hm => List.mem_append_left _ (h.marking trap hm)⟩

structure Known (granted : List Trap) (s : Weave) : Prop where
  calls : ∀ thread position, s.positions.get? thread = some position →
    Knows granted thread position
  blocked : ∀ thread blocker, s.controller.threads.blockedBy thread = some blocker →
    Stalls granted blocker thread

theorem Known.operate {granted : List Trap} (h : Known granted s) {thread : ThreadId}
    {position next : Position} (current : s.positions.get? thread = some position)
    (hnext : (s.controller.operate position).2.1 = some next) :
    Knows (granted ++ position.sleeping?.toList) thread next := by
  have hknows := h.calls thread position current
  have hfollowed := s.controller.followed_operate position
  refine ⟨(hfollowed.point next hnext).1.trans hknows.own, fun blocker hm => ?_,
    fun trap hm => ?_⟩
  · rcases hfollowed.blocker next hnext blocker hm with hkept | hstalled
    · exact (hknows.blocker blocker hkept).mono
    · rw [hknows.own] at hstalled
      exact (h.blocked thread blocker hstalled).mono
  · have hsleeping := hfollowed.marking next hnext trap hm
    exact List.mem_append_right _ (Option.mem_toList.mpr hsleeping)

theorem Known.step {granted : List Trap} (h : Known granted s)
    (hstep : s.step action = some (output, s')) :
    Known (granted ++ ((s.current? action).bind Position.sleeping?).toList) s' := by
  refine ⟨fun thread position hposition => ?_, fun thread blocker hblocked => ?_⟩
  · cases stepped hstep with
    | arrive call free =>
        rw [Table.get?_set] at hposition
        split at hposition
        · rename_i he
          obtain rfl := Option.some.inj hposition
          exact ⟨he, forall_mem_none, forall_mem_none⟩
        · exact (h.calls thread position hposition).mono
    | advance moving former current =>
        rw [Table.get?_set] at hposition
        split at hposition
        · rename_i he
          subst he
          rw [current?, current]
          exact h.operate current hposition
        · exact (h.calls thread position hposition).mono
    | forget address => exact (h.calls thread position hposition).mono
  · rcases (operated_step hstep).blockedBy thread blocker hblocked with hold | ⟨trap, hm, rfl, hne⟩
    · exact (h.blocked thread blocker hold).mono
    · obtain ⟨position, hcurrent, hmarking⟩ := Option.bind_eq_some_iff.mp hm
      obtain ⟨moving, -, hget⟩ := current?_eq_some hcurrent
      have hgranted := (h.calls moving position hget).marking trap hmarking
      exact Stalls.mono ⟨List.mem_map_of_mem hgranted, hne⟩

-- Each of the things that calls hold, against all that was handed out of it.
structure Handed (past : List Step) (s : Weave) : Prop where
  ungranted : Held Position.ungranted? s.positions ((grants past).map (·.point.serial))
    (List.range s.controller.nextSerial)
  unspent : Held Position.unspent? s.positions ((payments past).map (·.payer.serial))
    (List.range s.controller.nextSerial)
  sleeping : Held Position.sleeping? s.positions (grants past) (trapsTold past)
  removing : Held Position.removing? s.positions (removals past) (payments past)

theorem Handed.step {past : List Step} (h : Handed past s)
    (hstep : s.step action = some (output, s')) :
    Handed (past ++ [⟨s, action, output, s'⟩]) s' := by
  have hserials := (List.range_sublist.mpr (operated_step hstep).nextSerial).subperm
  cases stepped hstep with
  | arrive call free =>
      have hcurrent : s.current? (.arrive call) = none := rfl
      have hnext : (s.controller.stamp call).2.2.nextSerial = s.controller.nextSerial + 1 := rfl
      refine ⟨?_, ?_, ?_, ?_⟩
      · rw [grants_concat, List.map_append, hcurrent, hnext, List.range_succ]
        refine h.ungranted.set call.thread _ ?_
        rw [free]
        exact .refl _
      · rw [payments_concat, List.map_append, hcurrent, hnext, List.range_succ]
        refine h.unspent.set call.thread _ ?_
        rw [free]
        exact .refl _
      · rw [grants_concat, trapsTold_concat, hcurrent]
        exact h.sleeping.set call.thread _ List.nil_subperm
      · rw [removals_concat, payments_concat, hcurrent]
        exact h.removing.set call.thread _ List.nil_subperm
  | advance thread position current =>
      have hfollowed := s.controller.followed_operate position
      have hcurrent : s.current? (.advance thread) = some position := current
      refine ⟨?_, ?_, ?_, ?_⟩
      · rw [grants_concat, List.map_append, hcurrent]
        refine (h.ungranted.pass thread _ ?_).mono hserials
        rw [current]
        exact hfollowed.ungranted
      · rw [payments_concat, List.map_append, hcurrent]
        refine (h.unspent.pass thread _ ?_).mono hserials
        rw [current]
        exact hfollowed.unspent
      · rw [grants_concat, trapsTold_concat, hcurrent]
        refine h.sleeping.set thread _ ?_
        rw [current]
        exact hfollowed.sleeping
      · rw [removals_concat, payments_concat, hcurrent]
        refine h.removing.set thread _ ?_
        rw [current]
        exact hfollowed.removing
  | forget address =>
      have hcurrent : s.current? (.forget address) = none := rfl
      refine ⟨?_, ?_, ?_, ?_⟩
      · rw [grants_concat, hcurrent]
        simpa using h.ungranted.mono hserials
      · rw [payments_concat, hcurrent]
        simpa using h.unspent.mono hserials
      · rw [grants_concat, trapsTold_concat, hcurrent]
        simpa using h.sleeping.mono (List.sublist_append_left _ _).subperm
      · rw [removals_concat, payments_concat, hcurrent]
        simpa using h.removing

-- What is known of the credit of all points after some steps.
structure Credited (params : LearnedParams) (past : List Step) (s : Weave) : Prop where
  params_eq : s.controller.params = params
  handed : Handed past s
  known : Known (grants past) s
  balanced : s.controller.Balanced params.inferSize.toInt ((grants past).map (·.point.serial))
    ((payments past).map (·.blocker.serial))
  stalled : ∀ payment ∈ payments past, payment.blocker ∈ (grants past).map Trap.point
  fair : ∀ step ∈ past, step.Fair params

section

variable {params : LearnedParams} {past : List Step}

theorem Credited.granted_once (h : Credited params past s) :
    ((grants past).map (·.point.serial)).Nodup :=
  nodup_of_subperm h.handed.ungranted.used_subperm List.nodup_range

theorem Credited.paid_once (h : Credited params past s) :
    ((payments past).map (·.payer.serial)).Nodup :=
  nodup_of_subperm h.handed.unspent.used_subperm List.nodup_range

-- A call that is about to grant credit has not done so.
theorem Credited.fresh (h : Credited params past s) {trap : Trap}
    (hm : trap ∈ (s.current? action).bind Position.sleeping?) :
    trap.point.serial ∉ (grants past).map (·.point.serial) := by
  obtain ⟨position, hcurrent, hsleeping⟩ := Option.bind_eq_some_iff.mp hm
  obtain ⟨thread, -, hget⟩ := current?_eq_some hcurrent
  have hungranted := (Position.sleeping?_eq_some hsleeping).2
  have hheld : trap.point.serial ∈ s.positions.values.filterMap Position.ungranted? :=
    List.mem_filterMap.mpr ⟨position, Table.mem_values_of_get? hget, hungranted⟩
  have hnodup := nodup_of_subperm h.handed.ungranted List.nodup_range
  exact fun hgranted => (List.nodup_append.mp hnodup).2.2 _ hheld _ hgranted rfl

-- A call pays from the credit of a point that may stall its thread.
theorem Credited.payment_stalls (h : Credited params past s) {payment : Payment}
    (hm : payment ∈ (s.current? action).bind s.controller.payment?) :
    action = .advance payment.payer.thread ∧
      Stalls (grants past) payment.blocker payment.payer.thread := by
  obtain ⟨position, hcurrent, hpayment⟩ := Option.bind_eq_some_iff.mp hm
  obtain ⟨thread, haction, hget⟩ := current?_eq_some hcurrent
  obtain ⟨hpoint, hblocker, -⟩ := Learned.payment?_eq_some hpayment
  have hknows := h.known.calls thread position hget
  have hown := hknows.own
  rw [hpoint] at hown
  rw [hown]
  exact ⟨haction, hknows.blocker _ hblocker⟩

theorem Credited.fair_step (h : Credited params past s)
    (hstep : s.step action = some (output, s')) :
    Step.Fair params ⟨s, action, output, s'⟩ := by
  have hop := operated_step hstep
  refine ⟨fun trap hm => ?_, fun payment hm => ?_, fun point => hop.kept point.serial, hop.lost⟩
  · obtain ⟨position, hcurrent, hsleeping⟩ := Option.bind_eq_some_iff.mp hm
    obtain ⟨thread, haction, hget⟩ := current?_eq_some hcurrent
    have hown := (h.known.calls thread position hget).own
    rw [(Position.sleeping?_eq_some hsleeping).1] at hown
    refine ⟨haction.trans (congrArg Action.advance hown.symm), ?_⟩
    rw [← h.params_eq]
    exact hop.granted trap hm
  · obtain ⟨haction, hstalls⟩ := h.payment_stalls hm
    obtain ⟨hpos, hspent⟩ := hop.paid payment hm
    refine ⟨haction, hstalls.2, hspent, ?_⟩
    have hrest : s'.controller.creditAt payment.blocker.serial =
        s.controller.creditAt payment.blocker.serial - 1 := hspent
    change 0 ≤ s'.controller.creditAt payment.blocker.serial
    omega

theorem Credited.step (h : Credited params past s)
    (hstep : s.step action = some (output, s')) :
    Credited params (past ++ [⟨s, action, output, s'⟩]) s' := by
  have hop := operated_step hstep
  refine ⟨hop.params.trans h.params_eq, h.handed.step hstep, ?_, ?_, fun payment hm => ?_,
    fun step hm => ?_⟩
  · rw [grants_concat]
    exact h.known.step hstep
  · rw [grants_concat, payments_concat, List.map_append, List.map_append]
    exact h.balanced.step hop (by rw [h.params_eq]) fun trap hm => h.fresh hm
  · rw [payments_concat] at hm
    rw [grants_concat, List.map_append]
    refine List.mem_append_left _ ?_
    rcases List.mem_append.mp hm with hold | hnew
    · exact h.stalled payment hold
    · exact (h.payment_stalls (Option.mem_toList.mp hnew)).2.1
  · rcases List.mem_append.mp hm with hold | hnew
    · exact h.fair step hold
    · obtain rfl := List.mem_singleton.mp hnew
      exact h.fair_step hstep

end

end

-- Credit bounds what a run removes.
structure Bounded (params : LearnedParams) (steps : List Step) : Prop where
  fair : ∀ step ∈ steps, step.Fair params
  -- every point gets credit once at most, after the wait of the trap that was told to be set at it
  granted_once : ((grants steps).map (·.point.serial)).Nodup
  granted_trapped : (grants steps).Subperm (trapsTold steps)
  -- a call pays once at most, from the credit of a point that was granted some, and no more calls
  -- pay from it than it was granted units
  paid_once : ((payments steps).map (·.payer.serial)).Nodup
  paid_granted : ∀ payment ∈ payments steps, payment.blocker ∈ (grants steps).map Trap.point
  paid_bounded : ∀ point : Point,
    ((payments steps).map (·.blocker.serial)).count point.serial ≤ params.inferSize.toInt.toNat
  removed_paid : (removals steps).Subperm (payments steps)
  lost_bounded : (steps.flatMap Step.lost).length ≤
    params.inferSize.toInt.toNat * (trapsTold steps).length

theorem removals_cons (step : Step) (rest : List Step) :
    removals (step :: rest) = step.removal?.toList ++ removals rest := by
  cases h : step.removal? <;> simp [removals, h]

theorem length_lost_le {params : LearnedParams} {steps : List Step}
    (h : ∀ step ∈ steps, step.Fair params) :
    (steps.flatMap Step.lost).length ≤ (removals steps).length := by
  induction steps with
  | nil => exact Nat.le_refl _
  | cons step rest ih =>
      have hrest := ih fun other hm => h other (List.mem_cons_of_mem _ hm)
      have hlost := (h step List.mem_cons_self).lost.length_le
      rw [List.length_map] at hlost
      rw [List.flatMap_cons, List.length_append, removals_cons, List.length_append]
      omega

theorem Credited.payments_le {params : LearnedParams} {steps : List Step} {s : Weave}
    (h : Credited params steps s) :
    (payments steps).length ≤ params.inferSize.toInt.toNat * (trapsTold steps).length := by
  have hgranted := h.balanced.length_le
  rw [List.length_map, List.length_map] at hgranted
  have htrapped := h.handed.sleeping.used_subperm.length_le
  exact hgranted.trans (Nat.mul_le_mul_left _ htrapped)

theorem Credited.bounded {params : LearnedParams} {steps : List Step} {s : Weave}
    (h : Credited params steps s) : Bounded params steps where
  fair := h.fair
  granted_once := h.granted_once
  granted_trapped := h.handed.sleeping.used_subperm
  paid_once := h.paid_once
  paid_granted := h.stalled
  paid_bounded point := h.balanced.count_le point.serial
  removed_paid := h.handed.removing.used_subperm
  lost_bounded := by
    have hlost := length_lost_le h.fair
    have hremoved := h.handed.removing.used_subperm.length_le
    exact hlost.trans (hremoved.trans h.payments_le)

theorem credited_newLearned {config : RuntimeConfig} {classifier : Classifier}
    {entropy : RandomSource} {plans : PlanStore} {blacklist : List LocationPair}
    {lockApis : PatternSet} {c : Learned}
    (hc : Detector.newLearned config classifier entropy plans blacklist lockApis = .learned c) :
    Credited (config.learned.getD {}) [] { controller := c } := by
  obtain rfl := Controller.learned.inj hc
  refine ⟨rfl, ⟨List.nil_subperm, List.nil_subperm, List.nil_subperm, List.nil_subperm⟩,
    ⟨fun _ _ hm => ?_, fun _ _ hm => ?_⟩, ⟨fun _ => rfl, fun _ hm => ?_⟩, fun _ hm => ?_,
    fun _ hm => ?_⟩
  all_goals cases hm

-- Every pair that is told to be pruned was paid for.
theorem pruned_subperm {s s' : Weave} {actions : List Action} {steps : List Step}
    (h : s.exec actions = some (steps, s')) :
    ((told steps).filterMap Event.pruned?).Subperm (removals steps) := by
  have hstep : ∀ (past : List Step) (s : Weave) (action : Action) (output : Output) (s' : Weave),
      ((told past).filterMap Event.pruned?).Subperm (removals past) →
        s.step action = some (output, s') →
          ((told (past ++ [⟨s, action, output, s'⟩])).filterMap Event.pruned?).Subperm
            (removals (past ++ [⟨s, action, output, s'⟩])) := by
    intro past s action output s' hpast hstep
    rw [told_append, List.filterMap_append, removals_concat]
    refine hpast.append ?_
    rw [told, List.flatMap_singleton]
    cases stepped hstep with
    | arrive call free =>
        dsimp only
        split <;> exact List.nil_subperm
    | advance thread position current =>
        rw [current?, current]
        exact s.controller.pruned_operate position
    | forget address =>
        dsimp only
        unfold Learned.forget
        dsimp only
        split <;> exact List.nil_subperm
  have hlast : ((told ([] ++ steps)).filterMap Event.pruned?).Subperm (removals ([] ++ steps)) :=
    exec_induction (P := fun steps _ => ((told steps).filterMap Event.pruned?).Subperm
      (removals steps)) hstep h (.refl _)
  exact hlast

-- What events tell of pruning, bounded in turn: at most one pair for a call, no more for a blocker
-- than it can be granted units, and in all no more than that for every trap.
structure ToldBounded (params : LearnedParams) (events : List Event) : Prop where
  once : ((events.filterMap Event.pruned?).map (·.payer.serial)).Nodup
  blockers : ∀ blocker : Point,
    ((events.filterMap Event.pruned?).map (·.blocker.serial)).count blocker.serial ≤
      params.inferSize.toInt.toNat
  traps : (events.filterMap Event.pruned?).length ≤
    params.inferSize.toInt.toNat * (events.filterMap Event.trap?).length

theorem Credited.told_bounded {params : LearnedParams} {start s : Weave} {actions : List Action}
    {steps : List Step} (h : Credited params steps s)
    (hexec : start.exec actions = some (steps, s)) : ToldBounded params (told steps) := by
  have hpruned := (pruned_subperm hexec).trans h.handed.removing.used_subperm
  have hbounded := h.bounded
  refine ⟨nodup_of_subperm (map_subperm _ hpruned) hbounded.paid_once, fun blocker => ?_, ?_⟩
  · exact ((map_subperm _ hpruned).count_le _).trans (hbounded.paid_bounded blocker)
  · exact hpruned.length_le.trans h.payments_le

-- In every run of the operations of the learned controller from its start, whatever the calls and
-- however they interleave, pruning is bounded by credit. A run of its sections is such a run, and
-- what it tells of pruning is bounded too.
theorem credit_bounds_pruning (config : RuntimeConfig) (classifier : Classifier)
    (entropy : RandomSource) (plans : PlanStore) (blacklist : List LocationPair)
    (lockApis : PatternSet) (c : Learned)
    (hc : Detector.newLearned config classifier entropy plans blacklist lockApis = .learned c) :
    (∀ (actions : List Action) (steps : List Step) (s : Weave),
      exec { controller := c } actions = some (steps, s) →
        Bounded (config.learned.getD {}) steps) ∧
      ∀ (actions : List Action) (outputs : List Output) (s : Interleaving),
        Interleaving.exec { controller := .learned c } actions = some (outputs, s) →
          ToldBounded (config.learned.getD {}) (outputs.flatMap Output.events) ∧
            ∃ (after : Learned) (fine : List Action) (steps : List Step),
              s.controller = .learned after ∧
              exec { controller := c } fine = some (steps, ofStages after s.stages) ∧
              told steps = outputs.flatMap Output.events := by
  have hcredited : ∀ {actions : List Action} {steps : List Step} {s : Weave},
      exec { controller := c } actions = some (steps, s) →
        Credited (config.learned.getD {}) ([] ++ steps) s := fun h =>
    exec_induction (fun _ _ _ _ _ h hstep => h.step hstep) h (credited_newLearned hc)
  refine ⟨fun actions steps s h => (hcredited h).bounded, fun actions outputs s h => ?_⟩
  obtain ⟨after, fine, steps, hafter, hexec, htold⟩ := exec_of_interleaving rfl h
  refine ⟨?_, after, fine, steps, hafter, hexec, htold⟩
  rw [← htold]
  exact (hcredited hexec).told_bounded hexec

-- A thread comes to the instance of a trap, races with it, and comes again after its wait.
def stalled : List Action :=
  .arrive (Sample.put 1) :: List.replicate 7 (.advance 1) ++
    .arrive (Sample.put 2) :: List.replicate 12 (.advance 2) ++ List.replicate 4 (.advance 1) ++
      .arrive (Sample.put 2) :: List.replicate 9 (.advance 2)

theorem credit_bounds_pruning_of_stalled : ∃ c steps s, Sample.tracked = .learned c ∧
    exec { controller := c } stalled = some (steps, s) ∧ (payments steps).length = 1 ∧
      (steps.flatMap Step.lost).length = 1 ∧ Bounded .inMemory steps := by
  have hrun : (match Sample.tracked with
      | .learned c => (exec { controller := c } stalled).any fun told =>
          (payments told.1).length == 1 && (told.1.flatMap Step.lost).length == 1
      | .randomized _ => false) = true := by
    decide +kernel
  cases hc : Sample.tracked with
  | randomized c =>
      rw [hc] at hrun
      cases hrun
  | learned c =>
      rw [hc] at hrun
      obtain ⟨⟨steps, s⟩, hexec, hrun⟩ := (Option.any_eq_true _ _).mp hrun
      obtain ⟨hpaid, hlost⟩ := Bool.and_eq_true_iff.mp hrun
      refine ⟨c, steps, s, rfl, hexec, beq_iff_eq.mp hpaid, beq_iff_eq.mp hlost, ?_⟩
      exact (credit_bounds_pruning (.ofLearned .inMemory) Sample.instances Sample.entropy {} [] {} c
        hc).1 stalled steps s hexec

end Weave

end DelayInjection
