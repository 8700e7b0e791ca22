import DelayInjection.Proofs.Plan.Governing
import DelayInjection.Proofs.Plan.Merging

-- Handles that are kept while plans are added to their store. An addition that is merged makes a
-- new version of the stored plan, whose counter goes on from the count of the version before it;
-- a handle stays with its version, and all handles of one version count together.

namespace DelayInjection

-- A merged plan stays in the group of the plan that it was.
theorem TrapPlan.inGroup_merge (plan other : TrapPlan) (exact : Bool) (key : String) :
    (plan.merge other).inGroup exact key = plan.inGroup exact key := rfl

-- What is asked of a store for a handle: a place on its list of plans, or a point.
inductive PlanQuery where
  | listed (index : Nat)
  | found (point : Point) (globalWindow localWindow : Int64)

namespace PlanStore

def ask? (store : PlanStore) : PlanQuery → Option PlanHandle
  | .listed index => store.handles[index]?
  | .found point globalWindow localWindow => store.find? point globalWindow localWindow

-- How often the versions with one counter have injected a delay.
def countOf (store : PlanStore) (counter : Nat) : Nat := (store.injections.get? counter).getD 0

section

variable {limit : RegexLimit} {store next : PlanStore} {plan : TrapPlan} {handle : PlanHandle}

-- An answer is one of the stored plans.
theorem mem_handles_of_ask? {query : PlanQuery} (h : store.ask? query = some handle) :
    handle ∈ store.handles := by
  cases query with
  | listed index => exact List.mem_of_getElem? h
  | found point globalWindow localWindow =>
      simp only [ask?, find?] at h
      split at h
      · rename_i found hfound
        split at h
        · obtain rfl := Option.some.inj h
          exact mem_handles_iff.mpr (.inl ⟨_, hfound⟩)
        · cases h
      · obtain ⟨pattern, hpattern, rfl⟩ := Option.map_eq_some_iff.mp h
        exact mem_handles_iff.mpr (.inr ⟨pattern, List.mem_of_find?_eq_some hpattern, rfl⟩)

-- Only the new counter has another count than before.
theorem get?_injections_add (hindexed : Indexed store) (h : store.add limit plan = (none, next))
    {counter : Nat} (hne : counter ≠ store.nextCounter) :
    next.injections.get? counter = store.injections.get? counter := by
  rw [injections_add hindexed h, startCounter]
  exact Table.get?_insert_of_ne _ _ hne.symm

theorem countOf_add (hindexed : Indexed store) (h : store.add limit plan = (none, next)) :
    next.countOf store.nextCounter = store.startCount (store.host? plan) plan := by
  rw [countOf, injections_add hindexed h, startCounter, Table.get?_insert_self, Option.getD_some]

theorem countOf_recordInjection (store : PlanStore) (handle : PlanHandle) (counter : Nat) :
    (store.recordInjection handle).countOf counter =
      store.countOf counter + if handle.counter = counter then 1 else 0 := by
  unfold recordInjection countOf
  rw [Table.get?_insert]
  by_cases h : handle.counter = counter
  · rw [if_pos h, if_pos h, ← h]
    rfl
  · rw [if_neg h, if_neg h, Nat.add_zero]

end

end PlanStore

-- A store and the handles that were kept of its plans, in the order in which they were taken.
structure KeptPlans where
  store : PlanStore := {}
  kept : List PlanHandle := []

-- What happens to a store in use: a plan is offered to it, a handle is kept, or an injection is
-- recorded, through a handle that was kept or through one that the store is asked for.
inductive PlanOperation where
  | add (plan : TrapPlan)
  | keep (query : PlanQuery)
  | record (query : PlanQuery)
  | recordKept (index : Nat)

-- Whether a plan of a group is offered.
def PlanOperation.addsTo (exact : Bool) (key : String) : PlanOperation → Bool
  | add plan => plan.inGroup exact key
  | _ => false

namespace KeptPlans

-- The handle that an operation keeps.
def taken? (state : KeptPlans) : PlanOperation → Option PlanHandle
  | .keep query => state.store.ask? query
  | _ => none

-- The handle through which an operation records an injection.
def recorded? (state : KeptPlans) : PlanOperation → Option PlanHandle
  | .record query => state.store.ask? query
  | .recordKept index => state.kept[index]?
  | _ => none

def perform (limit : RegexLimit) (state : KeptPlans) (operation : PlanOperation) : KeptPlans where
  store := match operation with
    | .add plan => (state.store.add limit plan).2
    | operation => (state.recorded? operation).elim state.store state.store.recordInjection
  kept := state.kept ++ (state.taken? operation).toList

def run (limit : RegexLimit) (state : KeptPlans) (operations : List PlanOperation) : KeptPlans :=
  operations.foldl (perform limit) state

-- How many operations record an injection through a handle with a counter.
def recordings (limit : RegexLimit) (counter : Nat) : KeptPlans → List PlanOperation → Nat
  | _, [] => 0
  | state, operation :: rest =>
      (if (state.recorded? operation).any (·.counter == counter) then 1 else 0) +
        recordings limit counter (state.perform limit operation) rest

-- The handles that can still be used: those that were kept, and those of the stored plans.
def known (state : KeptPlans) : List PlanHandle := state.kept ++ state.store.handles

-- Stored plans stand in their groups, handles have counters that were started, and a counter
-- belongs to one version.
structure Sound (state : KeptPlans) : Prop where
  indexed : state.store.Indexed
  grouped : ∀ exact key handle, state.store.storedAt exact key = some handle →
    handle.plan.inGroup exact key = true
  started : ∀ handle ∈ state.known, handle.counter < state.store.nextCounter
  version : ∀ first ∈ state.known, ∀ second ∈ state.known, first.counter = second.counter →
    first = second

theorem known_empty : ({} : KeptPlans).known = [] := by
  simp [known, PlanStore.handles, Table.empty]

theorem sound_empty : Sound {} where
  indexed := PlanStore.indexed_empty
  grouped exact key handle hfound := by cases exact <;> cases hfound
  started handle hm := by
    rw [known_empty] at hm
    cases hm
  version first hm := by
    rw [known_empty] at hm
    cases hm

section

variable {limit : RegexLimit} {state : KeptPlans} {operation : PlanOperation}
  {handle other : PlanHandle} {exact : Bool} {key : String}

theorem mem_known_of_storedAt (h : state.store.storedAt exact key = some handle) :
    handle ∈ state.known :=
  List.mem_append_right _ (PlanStore.mem_handles_of_storedAt h)

theorem mem_known_of_exact (h : state.store.exact.get? key = some handle) :
    handle ∈ state.known :=
  List.mem_append_right _ (PlanStore.mem_handles_iff.mpr (.inl ⟨key, h⟩))

theorem mem_known_of_pattern {pattern : PatternPlan} (h : pattern ∈ state.store.patterns) :
    pattern.handle ∈ state.known :=
  List.mem_append_right _ (PlanStore.mem_handles_iff.mpr (.inr ⟨pattern, h, rfl⟩))

theorem mem_known_of_host? {plan : TrapPlan} (h : state.store.host? plan = some handle) :
    handle ∈ state.known := mem_known_of_storedAt h

theorem mem_known_of_recorded? (h : state.recorded? operation = some handle) :
    handle ∈ state.known := by
  cases operation with
  | record query => exact List.mem_append_right _ (PlanStore.mem_handles_of_ask? h)
  | recordKept index => exact List.mem_append_left _ (List.mem_of_getElem? h)
  | _ => cases h

theorem mem_handles_of_taken? (h : state.taken? operation = some handle) :
    handle ∈ state.store.handles := by
  cases operation with
  | keep query => exact PlanStore.mem_handles_of_ask? h
  | _ => cases h

theorem store_of_not_add (h : ∀ plan, operation ≠ .add plan) :
    (state.perform limit operation).store =
      (state.recorded? operation).elim state.store state.store.recordInjection := by
  cases operation with
  | add plan => exact absurd rfl (h plan)
  | _ => rfl

-- What an operation does to the store: it adds a plan, records an injection, or does nothing.
theorem store_perform (limit : RegexLimit) (state : KeptPlans) (operation : PlanOperation) :
    (∃ plan, operation = .add plan ∧
        state.store.add limit plan = (none, (state.perform limit operation).store)) ∨
      (∃ handle, state.recorded? operation = some handle ∧
        (state.perform limit operation).store = state.store.recordInjection handle) ∨
      (state.recorded? operation = none ∧
        (state.perform limit operation).store = state.store) := by
  by_cases hadded : ∃ plan, operation = .add plan
  · obtain ⟨plan, rfl⟩ := hadded
    have hstore : (state.perform limit (.add plan)).store = (state.store.add limit plan).2 := rfl
    rw [hstore]
    cases hadd : state.store.add limit plan with
    | mk refused? next =>
        cases refused? with
        | some text => exact .inr (.inr ⟨rfl, PlanStore.add_refused hadd⟩)
        | none => exact .inl ⟨plan, rfl, hadd⟩
  · rw [store_of_not_add fun plan hplan => hadded ⟨plan, hplan⟩]
    cases state.recorded? operation with
    | none => exact .inr (.inr ⟨rfl, rfl⟩)
    | some handle => exact .inr (.inl ⟨handle, rfl, rfl⟩)

theorem indexed_perform (h : state.store.Indexed) (limit : RegexLimit)
    (operation : PlanOperation) : (state.perform limit operation).store.Indexed := by
  rcases store_perform limit state operation with
    ⟨plan, -, hadd⟩ | ⟨handle, -, hstore⟩ | ⟨-, hstore⟩
  · exact h.add hadd
  · rw [hstore]
    exact h
  · rw [hstore]
    exact h

-- What is stored for a group changes by an addition to the group alone.
theorem storedAt_perform (h : state.store.Indexed) (limit : RegexLimit)
    (operation : PlanOperation) (exact : Bool) (key : String) :
    (∃ plan, operation = .add plan ∧ plan.inGroup exact key = true ∧
        state.store.add limit plan = (none, (state.perform limit operation).store) ∧
        (state.perform limit operation).store.storedAt exact key =
          some (state.store.versionOf (state.store.host? plan) plan)) ∨
      (state.perform limit operation).store.storedAt exact key =
        state.store.storedAt exact key := by
  rcases store_perform limit state operation with
    ⟨plan, rfl, hadd⟩ | ⟨handle, -, hstore⟩ | ⟨-, hstore⟩
  · have hstored := PlanStore.storedAt_add h hadd exact key
    by_cases hgroup : plan.inGroup exact key = true
    · rw [if_pos hgroup] at hstored
      exact .inl ⟨plan, rfl, hgroup, hadd, hstored⟩
    · rw [if_neg hgroup] at hstored
      exact .inr hstored
  · rw [hstore]
    exact .inr rfl
  · rw [hstore]
    exact .inr rfl

theorem nextCounter_le_perform (h : state.store.Indexed) (limit : RegexLimit)
    (operation : PlanOperation) :
    state.store.nextCounter ≤ (state.perform limit operation).store.nextCounter := by
  rcases store_perform limit state operation with
    ⟨plan, -, hadd⟩ | ⟨handle, -, hstore⟩ | ⟨-, hstore⟩
  · rw [PlanStore.nextCounter_add h hadd]
    exact Nat.le_succ _
  · rw [hstore]
    exact Nat.le_refl _
  · rw [hstore]

-- A counter that was started counts what is recorded with it, and nothing else.
theorem countOf_perform (hindexed : state.store.Indexed) {counter : Nat}
    (h : counter < state.store.nextCounter) :
    (state.perform limit operation).store.countOf counter = state.store.countOf counter +
      if (state.recorded? operation).any (·.counter == counter) then 1 else 0 := by
  rcases store_perform limit state operation with
    ⟨plan, rfl, hadd⟩ | ⟨handle, hrecorded, hstore⟩ | ⟨hrecorded, hstore⟩
  · unfold PlanStore.countOf
    rw [PlanStore.get?_injections_add hindexed hadd (Nat.ne_of_lt h)]
    rfl
  · rw [hstore, PlanStore.countOf_recordInjection, hrecorded]
    simp only [Option.any_some, beq_iff_eq]
  · rw [hstore, hrecorded]
    rfl

theorem countOf_run (hindexed : state.store.Indexed) {counter : Nat}
    (operations : List PlanOperation) (h : counter < state.store.nextCounter) :
    (state.run limit operations).store.countOf counter =
      state.store.countOf counter + recordings limit counter state operations := by
  induction operations generalizing state with
  | nil => rfl
  | cons operation rest ih =>
      have hnext := ih (indexed_perform hindexed limit operation)
        (h.trans_le (nextCounter_le_perform hindexed limit operation))
      rw [countOf_perform hindexed h] at hnext
      rw [recordings, ← Nat.add_assoc]
      exact hnext

-- After an operation nothing is known but what was known before and the version that it adds.
theorem known_perform (hindexed : state.store.Indexed)
    (h : handle ∈ (state.perform limit operation).known) :
    handle ∈ state.known ∨ ∃ plan, operation = .add plan ∧
      state.store.add limit plan = (none, (state.perform limit operation).store) ∧
      handle = state.store.versionOf (state.store.host? plan) plan := by
  rcases List.mem_append.mp h with hm | hm
  · rcases List.mem_append.mp hm with hm | hm
    · exact .inl (List.mem_append_left _ hm)
    · exact .inl (List.mem_append_right _ (mem_handles_of_taken? (Option.mem_toList.mp hm)))
  · obtain ⟨exact, key, hstored⟩ :=
      (indexed_perform hindexed limit operation).mem_handles_iff_storedAt.mp hm
    rcases storedAt_perform hindexed limit operation exact key with
      ⟨plan, hplan, -, hadd, hversion⟩ | hsame
    · rw [hversion] at hstored
      exact .inr ⟨plan, hplan, hadd, (Option.some.inj hstored).symm⟩
    · rw [hsame] at hstored
      exact .inl (mem_known_of_storedAt hstored)

-- The version that an addition makes is in the group of the added plan.
theorem Sound.inGroup_version (h : Sound state) {plan : TrapPlan}
    (hgroup : plan.inGroup exact key = true) :
    (state.store.versionOf (state.store.host? plan) plan).plan.inGroup exact key = true := by
  cases hhost : state.store.host? plan with
  | none => exact hgroup
  | some host =>
      obtain ⟨rfl, rfl⟩ := TrapPlan.inGroup_iff.mp hgroup
      exact (TrapPlan.inGroup_merge host.plan plan _ _).trans (h.grouped _ _ host hhost)

theorem Sound.grouped_perform (h : Sound state)
    (hstored : (state.perform limit operation).store.storedAt exact key = some handle) :
    handle.plan.inGroup exact key = true := by
  rcases storedAt_perform h.indexed limit operation exact key with
    ⟨plan, -, hgroup, -, hversion⟩ | hsame
  · rw [hversion] at hstored
    exact Option.some.inj hstored ▸ h.inGroup_version hgroup
  · rw [hsame] at hstored
    exact h.grouped exact key handle hstored

theorem Sound.started_perform (h : Sound state)
    (hm : handle ∈ (state.perform limit operation).known) :
    handle.counter < (state.perform limit operation).store.nextCounter := by
  rcases known_perform h.indexed hm with hm | ⟨plan, -, hadd, rfl⟩
  · exact (h.started handle hm).trans_le (nextCounter_le_perform h.indexed limit operation)
  · rw [PlanStore.nextCounter_add h.indexed hadd]
    exact Nat.lt_succ_self _

theorem Sound.version_perform (h : Sound state)
    (hfirst : handle ∈ (state.perform limit operation).known)
    (hsecond : other ∈ (state.perform limit operation).known)
    (hsame : handle.counter = other.counter) : handle = other := by
  rcases known_perform h.indexed hfirst with hfirst | ⟨plan, hplan, -, rfl⟩
  · rcases known_perform h.indexed hsecond with hsecond | ⟨plan, -, -, rfl⟩
    · exact h.version _ hfirst _ hsecond hsame
    · exact absurd hsame (Nat.ne_of_lt (h.started _ hfirst))
  · rcases known_perform h.indexed hsecond with hsecond | ⟨plan', hplan', -, rfl⟩
    · exact absurd hsame.symm (Nat.ne_of_lt (h.started _ hsecond))
    · rw [PlanOperation.add.inj (hplan.symm.trans hplan')]

theorem Sound.perform (h : Sound state) (operation : PlanOperation) :
    Sound (state.perform limit operation) where
  indexed := indexed_perform h.indexed limit operation
  grouped _ _ _ := h.grouped_perform
  started _ := h.started_perform
  version _ hfirst _ hsecond := h.version_perform hfirst hsecond

theorem Sound.run (h : Sound state) (operations : List PlanOperation) :
    Sound (state.run limit operations) := by
  induction operations generalizing state with
  | nil => exact h
  | cons operation rest ih => exact ih (h.perform operation)

-- Handles that were kept stay, in their order.
theorem kept_run (limit : RegexLimit) (state : KeptPlans) (operations : List PlanOperation) :
    state.kept <+: (state.run limit operations).kept := by
  induction operations generalizing state with
  | nil => exact List.prefix_refl _
  | cons operation rest ih =>
      exact (List.prefix_append _ _).trans (ih (state.perform limit operation))

-- A group has one stored version.
theorem Sound.eq_of_inGroup (h : Sound state)
    (hstored : state.store.storedAt exact key = some handle) (hm : other ∈ state.store.handles)
    (hgroup : other.plan.inGroup exact key = true) : other = handle := by
  obtain ⟨exact', key', hother⟩ := h.indexed.mem_handles_iff_storedAt.mp hm
  obtain ⟨rfl, rfl⟩ := TrapPlan.inGroup_iff.mp (h.grouped _ _ _ hother)
  obtain ⟨hexact, hkey⟩ := TrapPlan.inGroup_iff.mp hgroup
  rw [hexact, hkey, hstored] at hother
  exact (Option.some.inj hother).symm

theorem Sound.storedAt_of_mem (h : Sound state) (hm : handle ∈ state.store.handles) :
    state.store.storedAt handle.plan.isExact handle.plan.identityKey = some handle := by
  obtain ⟨exact, key, hstored⟩ := h.indexed.mem_handles_iff_storedAt.mp hm
  obtain ⟨rfl, rfl⟩ := TrapPlan.inGroup_iff.mp (h.grouped _ _ _ hstored)
  exact hstored

-- A merge gives a group a version with a counter of its own, which starts from the count of its
-- host. The handles that are known keep their counts.
theorem Sound.merge (h : Sound state) (limit : RegexLimit) {plan : TrapPlan} {host : PlanHandle}
    (hhost : state.store.host? plan = some host) :
    ∃ next merged, state.store.add limit plan = (none, next) ∧ next.host? plan = some merged ∧
      merged.plan = host.plan.merge plan ∧
      next.injectionsOf merged = state.store.injectionsOf host ∧
      ∀ handle ∈ state.known, handle.counter ≠ merged.counter ∧
        next.injectionsOf handle = state.store.injectionsOf handle := by
  obtain ⟨next, -, hadd, -⟩ := PlanStore.add_of_host limit hhost
  refine ⟨next, state.store.versionOf (some host) plan, hadd, ?_, rfl, ?_, fun handle hm => ?_⟩
  · rw [PlanStore.host?_eq_storedAt, PlanStore.storedAt_add h.indexed hadd,
      if_pos plan.inGroup_self, hhost]
  · have hcount := PlanStore.countOf_add h.indexed hadd
    rw [hhost] at hcount
    exact hcount
  · have hstarted := Nat.ne_of_lt (h.started handle hm)
    refine ⟨hstarted, ?_⟩
    unfold PlanStore.injectionsOf
    rw [PlanStore.get?_injections_add h.indexed hadd hstarted]

-- While no plan is added to a group, its stored version stays, and whoever takes a handle of the
-- group takes this one.
theorem Sound.shared_run (h : Sound state)
    (hstored : state.store.storedAt exact key = some handle) {operations : List PlanOperation}
    (hnone : ∀ operation ∈ operations, operation.addsTo exact key = false) :
    (state.run limit operations).store.storedAt exact key = some handle ∧
      ∃ taken, (state.run limit operations).kept = state.kept ++ taken ∧
        ∀ other ∈ taken, other.plan.inGroup exact key = true → other = handle := by
  induction operations generalizing state with
  | nil => exact ⟨hstored, [], (List.append_nil _).symm, nofun⟩
  | cons operation rest ih =>
      have hsame : (state.perform limit operation).store.storedAt exact key = some handle := by
        rcases storedAt_perform h.indexed limit operation exact key with
          ⟨plan, rfl, hgroup, -⟩ | hsame
        · have hfalse := hnone _ (List.mem_cons_self ..)
          rw [PlanOperation.addsTo, hgroup] at hfalse
          cases hfalse
        · rw [hsame, hstored]
      obtain ⟨hlast, taken, hkept, htaken⟩ := ih (h.perform operation) hsame
        fun other hm => hnone other (List.mem_cons_of_mem _ hm)
      refine ⟨hlast, (state.taken? operation).toList ++ taken, ?_, fun other hm hgroup => ?_⟩
      · rw [← List.append_assoc]
        exact hkept
      · rcases List.mem_append.mp hm with hm | hm
        · exact h.eq_of_inGroup hstored (mem_handles_of_taken? (Option.mem_toList.mp hm)) hgroup
        · exact htaken other hm hgroup

end

end KeptPlans

end DelayInjection
