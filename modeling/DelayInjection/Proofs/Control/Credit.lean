import Mathlib.Data.List.Perm.Subperm
import DelayInjection.Proofs.Control.Learning
import DelayInjection.Proofs.Control.Operations
import DelayInjection.Proofs.Control.Recording
import DelayInjection.Proofs.History.ThreadRecords

-- What single operations of the learned controller do to delay credit: a point gets credit after
-- the wait of its trap, and a call that it has stalled pays with a unit of it for the removal of
-- the pair of the two.

namespace DelayInjection

theorem forall_mem_none {α : Type} {P : α → Prop} : ∀ other ∈ (none : Option α), P other :=
  fun _ hm => (Option.not_mem_none _ hm).elim

-- A unit of the credit of a blocker, and the call that spends it.
structure Payment where
  payer : Point
  blocker : Point
deriving DecidableEq

def Payment.pair (payment : Payment) : LocationPair :=
  .of payment.payer.location payment.blocker.location

-- The payment for a pair that is told to be pruned.
def Event.pruned? : Event → Option Payment
  | .pairPruned payer blocker => some { payer, blocker }
  | _ => none

namespace Position

-- The point of the call, as its trap has it once there is one.
def point : Position → Point
  | .stamped _ point _ | .classified _ point _ _ | .staged (.handling point _ _ none)
  | .staged (.settling _ point _ _ _ none) => point
  | .identified access | .keeping access | .comparing access _ | .spending access _
  | .removing access _ | .looking access _ | .clearing access | .staged (.checking access) =>
      access.point
  | .staged (.handling _ _ _ (some trap)) | .staged (.settling _ _ _ _ _ (some trap)) => trap.point
  | .staged (.asleep wait) | .granted wait | .staged (.awake wait) | .staged (.removed wait) =>
      wait.trap.point

-- The trap of a call that has not granted its credit yet.
def sleeping? : Position → Option Trap
  | .staged (.asleep wait) => some wait.trap
  | _ => none

-- The trap of a call that is about to mark the threads near it.
def marking? : Position → Option Trap
  | .granted wait => some wait.trap
  | _ => none

-- The point that has stalled the thread of a call, as long as the call needs it.
def blocker? : Position → Option Point
  | .spending _ blocker | .removing _ blocker | .looking _ blocker => some blocker
  | _ => none

-- What a call has paid for and not got yet.
def removing? : Position → Option Payment
  | .removing access blocker => some { payer := access.point, blocker }
  | _ => none

-- The serial number of a call that may still spend credit.
def unspent? (position : Position) : Option Nat :=
  match position with
  | .stamped _ _ _ | .classified _ _ _ _ | .identified _ | .keeping _ | .comparing _ _
  | .spending _ _ => some position.point.serial
  | _ => none

-- The serial number of a call that may still grant credit.
def ungranted? (position : Position) : Option Nat :=
  match position with
  | .granted _ | .staged (.awake _) | .staged (.removed _) => none
  | _ => some position.point.serial

theorem sleeping?_eq_some {position : Position} {trap : Trap}
    (h : position.sleeping? = some trap) :
    position.point = trap.point ∧ position.ungranted? = some trap.point.serial := by
  unfold sleeping? at h
  split at h
  · obtain rfl := Option.some.inj h
    exact ⟨rfl, rfl⟩
  · cases h

end Position

namespace DangerTracker

-- The pairs that are live in one tracker and not in a later one.
def lost (before after : DangerTracker) : List LocationPair :=
  before.pairs.filter (· ∉ after.pairs)

theorem lost_of_subset {before after : DangerTracker} (h : before.pairs ⊆ after.pairs) :
    before.lost after = [] := by
  apply List.filter_eq_nil_iff.mpr
  intro pair hm
  simpa using h hm

theorem lost_remove (tracker : DangerTracker) (pair : LocationPair) :
    (tracker.lost (tracker.remove pair).2).Subperm [pair] := by
  rw [List.subperm_ext_iff]
  intro other hm
  have hgone := of_decide_eq_true (List.mem_filter.mp hm).2
  have hwas := (List.mem_filter.mp hm).1
  unfold remove at hgone
  split at hgone
  · have he : other = pair := by
      by_contra hne
      exact hgone ((List.mem_erase_of_ne hne).mpr hwas)
    subst he
    have hzero : (tracker.pairs.erase other).count other = 0 := List.count_eq_zero_of_not_mem hgone
    have hle : (tracker.lost (tracker.remove other).2).count other ≤ tracker.pairs.count other :=
      (List.filter_sublist).count_le other
    rw [List.count_erase_self] at hzero
    rw [List.count_singleton_self]
    omega
  · exact absurd hwas hgone

end DangerTracker

namespace Learned

def creditAt (c : Learned) (serial : Nat) : Int := (c.credits.get? serial).getD 0

-- What a call pays with its next operation.
def payment? (c : Learned) : Position → Option Payment
  | .spending access blocker =>
      if 0 < c.credit blocker then some { payer := access.point, blocker } else none
  | _ => none

theorem payment?_eq_some {c : Learned} {position : Position} {payment : Payment}
    (h : c.payment? position = some payment) :
    position.point = payment.payer ∧ position.blocker? = some payment.blocker ∧
      position.sleeping? = none := by
  unfold payment? at h
  split at h
  · split at h
    · obtain rfl := Option.some.inj h
      exact ⟨rfl, rfl, rfl⟩
    · cases h
  · cases h

-- All that credit and live pairs depend on.
def accounts (c : Learned) :
    LearnedParams × Nat × Table Nat Int × ThreadRecords × List LocationPair :=
  (c.params, c.nextSerial, c.credits, c.threads, c.danger.pairs)

-- No credit is granted or spent, no thread is stalled, and every live pair stays.
structure Quiet (c c' : Learned) : Prop where
  params : c'.params = c.params
  nextSerial : c.nextSerial ≤ c'.nextSerial
  credits : c'.credits = c.credits
  blockedBy : ∀ thread blocker, c'.threads.blockedBy thread = some blocker →
    c.threads.blockedBy thread = some blocker
  pairs : c.danger.pairs ⊆ c'.danger.pairs

-- What happens to the credits, the stalled threads and the live pairs when a call goes on from a
-- position, or when none does.
structure Operated (c : Learned) (position? : Option Position) (c' : Learned) : Prop where
  params : c'.params = c.params
  nextSerial : c.nextSerial ≤ c'.nextSerial
  granted : ∀ trap ∈ position?.bind Position.sleeping?,
    c'.creditAt trap.point.serial = c.params.inferSize.toInt
  paid : ∀ payment ∈ position?.bind c.payment?, 0 < c.creditAt payment.blocker.serial ∧
    c'.creditAt payment.blocker.serial = c.creditAt payment.blocker.serial - 1
  kept : ∀ serial,
    (∀ trap ∈ position?.bind Position.sleeping?, trap.point.serial ≠ serial) →
    (∀ payment ∈ position?.bind c.payment?, payment.blocker.serial ≠ serial) →
      c'.creditAt serial = c.creditAt serial
  blockedBy : ∀ thread blocker, c'.threads.blockedBy thread = some blocker →
    c.threads.blockedBy thread = some blocker ∨ ∃ trap ∈ position?.bind Position.marking?,
      blocker = trap.point ∧ blocker.thread ≠ thread
  lost : (c.danger.lost c'.danger).Subperm
    ((position?.bind Position.removing?).toList.map Payment.pair)

section

variable {c c' : Learned}

theorem Quiet.of_accounts (h : c'.accounts = c.accounts) : c.Quiet c' := by
  simp only [accounts, Prod.mk.injEq] at h
  obtain ⟨hparams, hserial, hcredits, hthreads, hpairs⟩ := h
  exact ⟨hparams, Nat.le_of_eq hserial.symm, hcredits, fun _ _ hb => hthreads ▸ hb,
    fun _ hm => hpairs.symm ▸ hm⟩

theorem Quiet.operated (h : c.Quiet c') (position? : Option Position)
    (hsleeping : position?.bind Position.sleeping? = none)
    (hpaid : position?.bind c.payment? = none) : c.Operated position? c' where
  params := h.params
  nextSerial := h.nextSerial
  granted trap hm := by
    rw [hsleeping] at hm
    cases hm
  paid payment hm := by
    rw [hpaid] at hm
    cases hm
  kept serial _ _ := by rw [creditAt, creditAt, h.credits]
  blockedBy thread blocker hb := .inl (h.blockedBy thread blocker hb)
  lost := by
    rw [DangerTracker.lost_of_subset h.pairs]
    exact List.nil_subperm

end

section

variable (c : Learned)

theorem accounts_classify (call : Call) : (c.classify call).2.accounts = c.accounts := by
  unfold classify
  split <;> rfl

theorem accounts_decide (point : Point) (classification : Classification)
    (plan? : Option PlanHandle) :
    (c.decide point classification plan?).2.2.accounts = c.accounts := by
  have hterms : (c.trapTerms point plan?).2.accounts = c.accounts := by
    have hweighed := c.weighed_trapTerms point plan?
    generalize (c.trapTerms point plan?).2 = after at hweighed ⊢
    cases hweighed with
    | passed => rfl
    | weighed random => simp only [accounts, DangerTracker.pairs_weigh]
  have hdecided := c.decided point classification plan?
  generalize c.decide point classification plan? = decision at hdecided ⊢
  cases hdecided with
  | raced => rfl
  | passed | trapped delayMs terms free plans => exact hterms

theorem quiet_discoverPair (later : Point) (events : List Event) (earlier : Point) :
    c.Quiet (discoverPair later (events, c) earlier).2 := by
  unfold discoverPair
  dsimp only
  split
  · exact ⟨rfl, Nat.le_refl _, rfl, fun _ _ h => h,
      fun _ hm => (c.danger.mem_pairs_consider_iff _ _).mpr (.inl hm)⟩
  · exact .of_accounts rfl

theorem quiet_setLast (point : Point) :
    c.Quiet { c with threads := c.threads.setLast point } where
  params := rfl
  nextSerial := Nat.le_refl _
  credits := rfl
  blockedBy thread _ h := (ThreadRecords.blockedBy_setLast c.threads thread point).symm.trans h
  pairs := List.Subset.refl _

theorem quiet_clearBlockedBy (thread : ThreadId) :
    c.Quiet { c with threads := c.threads.clearBlockedBy thread } where
  params := rfl
  nextSerial := Nat.le_refl _
  credits := rfl
  blockedBy _ _ h := ThreadRecords.blockedBy_clearBlockedBy thread h
  pairs := List.Subset.refl _

theorem creditAt_grantCredit (point : Point) (credit : Int) (serial : Nat) :
    (c.grantCredit point credit).creditAt serial =
      if point.serial = serial then credit else c.creditAt serial := by
  unfold creditAt grantCredit
  rw [Table.get?_insert]
  split <;> rfl

theorem operated_spending (access : Access) (blocker : Point) :
    c.Operated (some (.spending access blocker)) (c.spendCredit blocker).2 := by
  by_cases hpaid : 0 < c.credit blocker
  · have hspent : (c.spendCredit blocker).2 = c.grantCredit blocker (c.credit blocker - 1) := by
      simp only [spendCredit, DelayInjection.spendCredit, if_pos hpaid]
    have hpayment : c.payment? (.spending access blocker) =
        some { payer := access.point, blocker } := if_pos hpaid
    rw [hspent]
    refine ⟨rfl, Nat.le_refl _, forall_mem_none, fun payment hm => ?_, fun serial _ hother => ?_,
      fun _ _ h => .inl h, ?_⟩
    · obtain rfl := Option.some.inj (hpayment.symm.trans hm)
      rw [creditAt_grantCredit, if_pos rfl]
      exact ⟨hpaid, rfl⟩
    · rw [creditAt_grantCredit, if_neg (hother _ hpayment)]
    · exact (DangerTracker.lost_of_subset (List.Subset.refl _)).symm ▸ List.nil_subperm
  · have hspent : (c.spendCredit blocker).2 = c := by
      simp only [spendCredit, DelayInjection.spendCredit, if_neg hpaid]
    rw [hspent]
    exact (Quiet.of_accounts rfl).operated _ rfl (if_neg hpaid)

theorem operated_removing (access : Access) (blocker : Point) :
    c.Operated (some (.removing access blocker))
      { c with danger := (c.danger.remove (.of access.point.location blocker.location)).2 } where
  params := rfl
  nextSerial := Nat.le_refl _
  granted := forall_mem_none
  paid := forall_mem_none
  kept _ _ _ := rfl
  blockedBy _ _ h := .inl h
  lost := c.danger.lost_remove _

theorem operated_asleep (wait : Waiting) :
    c.Operated (some (.staged (.asleep wait)))
      (c.grantCredit wait.trap.point c.params.inferSize.toInt) where
  params := rfl
  nextSerial := Nat.le_refl _
  granted trap hm := by
    obtain rfl := Option.some.inj hm
    rw [creditAt_grantCredit, if_pos rfl]
  paid := forall_mem_none
  kept serial hother _ := by rw [creditAt_grantCredit, if_neg (hother wait.trap rfl)]
  blockedBy _ _ h := .inl h
  lost := (DangerTracker.lost_of_subset (List.Subset.refl _)).symm ▸ List.nil_subperm

theorem operated_granted (wait : Waiting) (limit : TimeLimit) :
    c.Operated (some (.granted wait))
      { c with threads := (c.threads.markBlockedNear wait.trap.point limit).2 } where
  params := rfl
  nextSerial := Nat.le_refl _
  granted := forall_mem_none
  paid := forall_mem_none
  kept _ _ _ := rfl
  blockedBy thread blocker h := by
    refine (ThreadRecords.blockedBy_markBlockedNear _ _ h).imp_right ?_
    rintro ⟨rfl, hother⟩
    exact ⟨wait.trap, rfl, rfl, hother⟩
  lost := (DangerTracker.lost_of_subset (List.Subset.refl _)).symm ▸ List.nil_subperm

theorem operated_operate (position : Position) :
    c.Operated (some position) (c.operate position).2.2 := by
  have hquiet : ∀ {c' : Learned}, c.Quiet c' → position.sleeping? = none →
      c.payment? position = none → c.Operated (some position) c' :=
    fun h => h.operated (some position)
  cases position with
  | stamped call point plan? => exact hquiet (.of_accounts (c.accounts_classify call)) rfl rfl
  | classified call point plan? class? =>
      cases class? with
      | none => exact hquiet (c.quiet_setLast point) rfl rfl
      | some classification => exact hquiet (.of_accounts rfl) rfl rfl
  | identified access => exact hquiet (c.quiet_setLast access.point) rfl rfl
  | keeping access => exact hquiet (.of_accounts rfl) rfl rfl
  | comparing access earlier =>
      cases earlier with
      | cons first rest => exact hquiet (c.quiet_discoverPair access.point [] first) rfl rfl
      | nil =>
          have hsame : (c.operate (.comparing access [])).2.2 = c := by
            simp only [operate]
            split <;> rfl
          exact hquiet (.of_accounts (congrArg accounts hsame)) rfl rfl
  | spending access blocker => exact c.operated_spending access blocker
  | removing access blocker => exact c.operated_removing access blocker
  | looking access blocker => exact hquiet (.of_accounts rfl) rfl rfl
  | clearing access => exact hquiet (c.quiet_clearBlockedBy access.point.thread) rfl rfl
  | granted wait => exact c.operated_granted wait (stallLimit c.params)
  | staged stage =>
      cases stage with
      | checking access =>
          exact hquiet (.of_accounts (c.accounts_decide access.point access.classification _)) rfl
            rfl
      | handling racing conflicts race? trap? =>
          cases conflicts with
          | cons conflict rest => exact hquiet (.of_accounts rfl) rfl rfl
          | nil => cases trap? <;> exact hquiet (.of_accounts rfl) rfl rfl
      | settling phase racing conflict rest race? trap? =>
          cases phase <;> exact hquiet (.of_accounts rfl) rfl rfl
      | asleep wait => exact c.operated_asleep wait
      | awake wait | removed wait => exact hquiet (.of_accounts rfl) rfl rfl

end

-- What a call takes along to its next position, and what it has granted, paid, been told and
-- removed on the way.
structure Followed (c : Learned) (position : Position) (events : List Event)
    (next? : Option Position) : Prop where
  point : ∀ next ∈ next?,
    next.point.thread = position.point.thread ∧ next.point.serial = position.point.serial
  ungranted : ((next?.bind Position.ungranted?).toList ++
    position.sleeping?.toList.map (·.point.serial)).Subperm position.ungranted?.toList
  unspent : ((next?.bind Position.unspent?).toList ++
    (c.payment? position).toList.map (·.payer.serial)).Subperm position.unspent?.toList
  sleeping : ((next?.bind Position.sleeping?).toList ++ position.sleeping?.toList).Subperm
    (position.sleeping?.toList ++ events.filterMap Event.trap?)
  removing : ((next?.bind Position.removing?).toList ++ position.removing?.toList).Subperm
    (position.removing?.toList ++ (c.payment? position).toList)
  blocker : ∀ next ∈ next?, ∀ blocker ∈ next.blocker?, blocker ∈ position.blocker? ∨
    c.threads.blockedBy position.point.thread = some blocker
  marking : ∀ next ∈ next?, ∀ trap ∈ next.marking?, trap ∈ position.sleeping?

section

variable {c : Learned} {position next : Position} {events : List Event}

theorem Followed.returned (hsleeping : position.sleeping? = none)
    (hpaid : c.payment? position = none) (hremoving : position.removing? = none) :
    c.Followed position events none where
  point := forall_mem_none
  ungranted := by simp [hsleeping]
  unspent := by simp [hpaid]
  sleeping := by simp [hsleeping]
  removing := by simp [hremoving]
  blocker := forall_mem_none
  marking := forall_mem_none

theorem Followed.to
    (hpoint : next.point.thread = position.point.thread ∧
      next.point.serial = position.point.serial)
    (hungranted : (next.ungranted?.toList ++
      position.sleeping?.toList.map (·.point.serial)).Subperm position.ungranted?.toList)
    (hunspent : (next.unspent?.toList ++
      (c.payment? position).toList.map (·.payer.serial)).Subperm position.unspent?.toList)
    (hsleeping : (next.sleeping?.toList ++ position.sleeping?.toList).Subperm
      (position.sleeping?.toList ++ events.filterMap Event.trap?))
    (hremoving : (next.removing?.toList ++ position.removing?.toList).Subperm
      (position.removing?.toList ++ (c.payment? position).toList))
    (hblocker : ∀ blocker ∈ next.blocker?, blocker ∈ position.blocker? ∨
      c.threads.blockedBy position.point.thread = some blocker)
    (hmarking : ∀ trap ∈ next.marking?, trap ∈ position.sleeping?) :
    c.Followed position events (some next) where
  point _ hm := Option.some.inj hm ▸ hpoint
  ungranted := hungranted
  unspent := hunspent
  sleeping := hsleeping
  removing := hremoving
  blocker _ hm := Option.some.inj hm ▸ hblocker
  marking _ hm := Option.some.inj hm ▸ hmarking

-- Most operations grant, pay and remove nothing, and leave nothing to be removed or marked.
theorem Followed.moved
    (hpoint : next.point.thread = position.point.thread ∧
      next.point.serial = position.point.serial)
    (hidle : position.sleeping? = none ∧ c.payment? position = none ∧ position.removing? = none)
    (hplain : next.sleeping? = none ∧ next.removing? = none ∧ next.marking? = none ∧
      (next.blocker? = none ∨ next.blocker? = position.blocker?))
    (hungranted : next.ungranted? = position.ungranted?)
    (hunspent : next.unspent? = none ∨ next.unspent? = position.unspent?) :
    c.Followed position events (some next) := by
  obtain ⟨hsleeping, hpaid, hremoving⟩ := hidle
  obtain ⟨hawake, hunpaid, hunmarked, hblocker⟩ := hplain
  refine .to hpoint ?_ ?_ ?_ ?_ (fun blocker hm => ?_) (fun trap hm => ?_)
  · simpa [hsleeping, hungranted] using List.Subperm.refl _
  · rcases hunspent with h | h
    · simp [hpaid, h]
    · simpa [hpaid, h] using List.Subperm.refl _
  · simp [hsleeping, hawake]
  · simp [hremoving, hunpaid]
  · rcases hblocker with h | h
    · rw [h] at hm
      cases hm
    · exact .inl (h ▸ hm)
  · rw [hunmarked] at hm
    cases hm

end

section

variable (c : Learned)

theorem followed_spending (access : Access) (blocker : Point) :
    c.Followed (.spending access blocker) (c.operate (.spending access blocker)).1.events
      (c.operate (.spending access blocker)).2.1 := by
  by_cases hpaid : 0 < c.credit blocker
  · have hpayment : c.payment? (.spending access blocker) =
        some { payer := access.point, blocker } := if_pos hpaid
    have hnext : (c.operate (.spending access blocker)).2.1 =
        some (.removing access blocker) := by
      simp [operate, spendCredit, DelayInjection.spendCredit, hpaid]
    rw [hnext]
    refine .to ⟨rfl, rfl⟩ (.refl _) ?_ List.nil_subperm ?_ (fun _ hm => .inl hm)
      forall_mem_none
    · rw [hpayment]
      exact .refl _
    · rw [hpayment]
      exact .refl _
  · have hnext : (c.operate (.spending access blocker)).2.1 = some (.looking access blocker) := by
      simp [operate, spendCredit, DelayInjection.spendCredit, hpaid]
    rw [hnext]
    exact .moved ⟨rfl, rfl⟩ ⟨rfl, if_neg hpaid, rfl⟩ ⟨rfl, rfl, rfl, .inr rfl⟩ rfl (.inl rfl)

theorem followed_checking (access : Access) :
    c.Followed (.staged (.checking access)) []
      (c.operate (.staged (.checking access))).2.1 := by
  have hbooking := c.decide_booking access.point access.classification access.plan?
  have hnext : (c.operate (.staged (.checking access))).2.1 = some (.staged (.handling access.point
      (c.decide access.point access.classification access.plan?).1 none
      (c.decide access.point access.classification access.plan?).2.1)) := rfl
  rw [hnext]
  generalize (c.decide access.point access.classification access.plan?).2.1 = trap? at hbooking
  generalize (c.decide access.point access.classification access.plan?).2.2.shared = after
    at hbooking
  cases hbooking with
  | passed => exact .moved ⟨rfl, rfl⟩ ⟨rfl, rfl, rfl⟩ ⟨rfl, rfl, rfl, .inl rfl⟩ rfl (.inl rfl)
  | trapped delayMs =>
      exact .moved ⟨rfl, rfl⟩ ⟨rfl, rfl, rfl⟩ ⟨rfl, rfl, rfl, .inl rfl⟩ rfl (.inl rfl)

theorem followed_operate (position : Position) :
    c.Followed position (c.operate position).1.events (c.operate position).2.1 := by
  cases position with
  | stamped call point plan? | keeping access =>
      exact .moved ⟨rfl, rfl⟩ ⟨rfl, rfl, rfl⟩ ⟨rfl, rfl, rfl, .inl rfl⟩ rfl (.inr rfl)
  | classified call point plan? class? =>
      cases class? with
      | none => exact .returned rfl rfl rfl
      | some classification =>
          exact .moved ⟨rfl, rfl⟩ ⟨rfl, rfl, rfl⟩ ⟨rfl, rfl, rfl, .inl rfl⟩ rfl (.inr rfl)
  | identified access =>
      simp only [operate]
      split
      · exact .moved ⟨rfl, rfl⟩ ⟨rfl, rfl, rfl⟩ ⟨rfl, rfl, rfl, .inl rfl⟩ rfl (.inr rfl)
      · exact .moved ⟨rfl, rfl⟩ ⟨rfl, rfl, rfl⟩ ⟨rfl, rfl, rfl, .inl rfl⟩ rfl (.inl rfl)
  | comparing access earlier =>
      cases earlier with
      | cons first rest =>
          exact .moved ⟨rfl, rfl⟩ ⟨rfl, rfl, rfl⟩ ⟨rfl, rfl, rfl, .inl rfl⟩ rfl (.inr rfl)
      | nil =>
          simp only [operate]
          split
          · exact .moved ⟨rfl, rfl⟩ ⟨rfl, rfl, rfl⟩ ⟨rfl, rfl, rfl, .inl rfl⟩ rfl (.inl rfl)
          · rename_i blocker hblocked
            refine .to ⟨rfl, rfl⟩ (.refl _) (.refl _) (.refl _) (.refl _) (fun other hm => ?_)
              forall_mem_none
            exact .inr (hblocked.trans hm)
  | spending access blocker => exact c.followed_spending access blocker
  | removing access blocker =>
      exact .to ⟨rfl, rfl⟩ (.refl _) (.refl _) List.nil_subperm (.refl _) (fun _ hm => .inl hm)
        forall_mem_none
  | looking access blocker =>
      simp only [operate]
      split <;> exact .moved ⟨rfl, rfl⟩ ⟨rfl, rfl, rfl⟩ ⟨rfl, rfl, rfl, .inl rfl⟩ rfl (.inl rfl)
  | clearing access | granted wait =>
      exact .moved ⟨rfl, rfl⟩ ⟨rfl, rfl, rfl⟩ ⟨rfl, rfl, rfl, .inl rfl⟩ rfl (.inl rfl)
  | staged stage =>
      cases stage with
      | checking access => exact c.followed_checking access
      | handling racing conflicts race? trap? =>
          cases conflicts with
          | cons conflict rest =>
              have hfaced := c.shared.faced racing conflict rest race? trap?
              simp only [operate]
              generalize c.shared.face racing conflict rest race? trap? = faced at hfaced ⊢
              cases trap? <;> cases hfaced <;>
                exact .moved ⟨rfl, rfl⟩ ⟨rfl, rfl, rfl⟩ ⟨rfl, rfl, rfl, .inl rfl⟩ rfl (.inl rfl)
          | nil =>
              cases trap? with
              | none => exact .returned rfl rfl rfl
              | some trap =>
                  exact .to ⟨rfl, rfl⟩ (.refl _) (.refl _) (.refl _) (.refl _) forall_mem_none
                    forall_mem_none
      | settling phase racing conflict rest race? trap? =>
          cases trap? <;> cases phase <;>
            exact .moved ⟨rfl, rfl⟩ ⟨rfl, rfl, rfl⟩ ⟨rfl, rfl, rfl, .inl rfl⟩ rfl (.inl rfl)
      | asleep wait =>
          exact .to ⟨rfl, rfl⟩ (.refl _) (.refl _) (.refl _) (.refl _) forall_mem_none
            (fun _ hm => hm)
      | awake wait =>
          exact .moved ⟨rfl, rfl⟩ ⟨rfl, rfl, rfl⟩ ⟨rfl, rfl, rfl, .inl rfl⟩ rfl (.inl rfl)
      | removed wait => exact .returned rfl rfl rfl

-- A pair is told to be pruned only by the operation that removes it.
theorem pruned_operate (position : Position) :
    ((c.operate position).1.events.filterMap Event.pruned?).Subperm position.removing?.toList := by
  cases position with
  | removing access blocker =>
      simp only [operate]
      split
      · exact .refl _
      · exact List.nil_subperm
  | comparing access earlier =>
      cases earlier with
      | cons first rest =>
          simp only [operate, discoverPair]
          split
          · split <;> exact List.nil_subperm
          · exact List.nil_subperm
      | nil =>
          simp only [operate]
          split <;> exact List.nil_subperm
  | classified call point plan? class? => cases class? <;> exact List.nil_subperm
  | staged stage =>
      cases stage with
      | handling racing conflicts race? trap? =>
          cases conflicts with
          | cons conflict rest =>
              have hfaced := c.shared.face_events racing conflict rest race? trap?
              simp only [operate, hfaced]
              exact List.nil_subperm
          | nil => cases trap? <;> exact List.nil_subperm
      | settling phase racing conflict rest race? trap? =>
          cases phase <;> exact List.nil_subperm
      | checking access | asleep wait | awake wait | removed wait => exact List.nil_subperm
  | stamped _ _ _ | identified _ | keeping _ | spending _ _ | looking _ _ | clearing _
  | granted _ => exact List.nil_subperm

end

end Learned

end DelayInjection
